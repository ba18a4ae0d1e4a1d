/-!
# Log lines
-/

namespace Danmaku

inductive LogLevel where
  | warn
  | debug
  | trace
deriving DecidableEq

def LogLevel.name : LogLevel → String
  | warn => "warn"
  | debug => "debug"
  | trace => "trace"

structure LogLine where
  level : LogLevel
  message : String
deriving DecidableEq

end Danmaku
