import Danmaku.Bullet.Basic
import Danmaku.Engine.Fault
import Danmaku.Log

/-!
# Events

What comes of playing a pattern besides the changes of the bullet itself. Every event leaves one
line in the log.
-/

namespace Danmaku

inductive Event where
  /-- A bullet has been fired; it belongs to the host now. -/
  | fired (bullet : Bullet)
  | fault (cause : Fault)
  /-- A parameter without a value was taken as 0. -/
  | defaulted (index : Nat)
  | repeating (count : Nat)
  /-- Actions were put on top of the running one. -/
  | entering (count : Nat)
  /-- The running action made room for another. -/
  | replacing

namespace Event

def log : Event → LogLine
  | fired b =>
    ⟨.trace, "fired bullet at " ++ b.position.text ++ " heading " ++ b.heading.text .plain
      ++ " speed " ++ b.speed.text .plain⟩
  | fault cause => ⟨.warn, cause.message⟩
  | defaulted index => ⟨.debug, "unbound parameter `$" ++ toString index ++ "` evaluated as 0"⟩
  | repeating count => ⟨.debug, "repeating action " ++ toString count ++ " times"⟩
  | entering count => ⟨.trace, "entering " ++ toString count ++ " action(s)"⟩
  | replacing => ⟨.trace, "replacing finished action"⟩

def bullet? : Event → Option Bullet
  | fired b => some b
  | _ => none

def fault? : Event → Option Fault
  | fault cause => some cause
  | _ => none

end Event

end Danmaku
