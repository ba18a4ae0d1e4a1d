import Danmaku.Proofs.Engine.Life

/-!
# Fields

A program makes an engine, and any number of bullets, and does with them what it likes: it handles
a bullet by itself, has it step, or changes a setting. What the bullets fire joins them. What lasts
of a bullet through all of this holds of every bullet (`Piece.Lasting.run`), and so does what lasts
as long as the program keeps to certain things (`Piece.LastingUnder.run`).
-/

namespace Danmaku

/-- The command sets off a change of the heading. -/
def Element.turns (e : Element) : Bool :=
  e.kind = .changeDirection && (e.child? .direction).isSome && (e.child? .term).isSome

/-- The next step sets off a change of the heading. -/
def Bullet.turns (b : Bullet) : Bool := b.next?.any Element.turns

/-- A bullet, and whether the change of its heading has been set off by a command. -/
structure Piece where
  bullet : Bullet
  commanded : Bool

/-- What a program does to a bullet by itself. -/
inductive Touch where
  | place (position : Vec3) (speed : Binary32) (acceleration : Vec3) (visible : Bool)
      (plane : Plane)
  | setHeading (heading : Binary32)
  | changeDirection (ramp : Ramp)
  | changeSpeed (ramp : Ramp)
  | setThrust (thrust : Thrust)
  | clearThrust
  | push (cursor : Cursor)
  | vanish
  | tick (dt multiplier : Binary32)

namespace Piece

def touch (p : Piece) : Touch → Piece
  | .place position speed acceleration visible plane =>
    { p with bullet := { p.bullet with position, speed, acceleration, visible, plane } }
  | .setHeading heading => { p with bullet := p.bullet.setHeading heading }
  | .changeDirection ramp => ⟨{ p.bullet with headingRamp := ramp }, false⟩
  | .changeSpeed ramp => { p with bullet := { p.bullet with speedRamp := ramp } }
  | .setThrust thrust => { p with bullet := { p.bullet with thrust } }
  | .clearThrust => { p with bullet := p.bullet.clearThrust }
  | .push cursor => { p with bullet := p.bullet.push cursor }
  | .vanish => { p with bullet := p.bullet.vanish }
  | .tick dt multiplier => { p with bullet := p.bullet.tick dt multiplier }

def step (e : Engine) (p : Piece) : Piece :=
  ⟨(e.step p.bullet).2.1.1, p.bullet.turns || p.commanded⟩

def integrate (e : Engine) (dt : Binary32) (p : Piece) : Piece :=
  { p with bullet := e.integrate p.bullet dt }

end Piece

/-- An engine, and the bullets that a program has made or that they have fired. -/
structure Field where
  engine : Engine
  pieces : List Piece

namespace Field

inductive Act where
  | make (position : Vec3) (heading speed : Binary32) (plane : Plane)
  | shooter (position : Vec3) (plane : Plane)
  | touch (i : Nat) (touch : Touch)
  | step (i : Nat)
  | integrate (i : Nat) (dt : Binary32)
  | adjust (adjustment : Adjustment)

/-- A field without bullets yet. -/
def start (document : Document) (settings : Settings) : Field := ⟨.make document settings, []⟩

def add (f : Field) (bullets : List Bullet) : Field :=
  { f with pieces := f.pieces ++ bullets.map (⟨·, false⟩) }

/-- An act on a bullet that is not there does nothing. -/
def act (f : Field) : Act → Field
  | .make position heading speed plane => f.add [.make position heading speed plane]
  | .shooter position plane => f.add [.shooter position plane]
  | .touch i touch => { f with pieces := f.pieces.modify i (·.touch touch) }
  | .step i =>
    match f.pieces[i]? with
    | some p =>
      let (engine, _, events) := f.engine.step p.bullet
      Field.add ⟨engine, f.pieces.modify i (·.step f.engine)⟩ (events.filterMap Event.bullet?)
    | none => f
  | .integrate i dt => { f with pieces := f.pieces.modify i (·.integrate f.engine dt) }
  | .adjust adjustment => { f with engine := f.engine.adjust adjustment }

def run (f : Field) (acts : List Act) : Field := acts.foldl act f

end Field

/-- What holds of every bullet that is new, and outlasts whatever is done to it within `T`. Frames
are within it in any case. -/
structure Piece.LastingUnder (T : Touch → Prop) (P : Piece → Prop) : Prop where
  make (position : Vec3) (heading speed : Binary32) (plane : Plane) :
    P ⟨.make position heading speed plane, false⟩
  shooter (position : Vec3) (plane : Plane) : P ⟨.shooter position plane, false⟩
  fired {e : Engine} {source b : Bullet} (h : .fired b ∈ (e.step source).2.2) : P ⟨b, false⟩
  touch {p : Piece} (h : P p) {touch : Touch} (within : T touch) : P (p.touch touch)
  tick {p : Piece} (h : P p) (dt multiplier : Binary32) : P (p.touch (.tick dt multiplier))
  step {p : Piece} (h : P p) (e : Engine) : P (p.step e)

/-- What holds of every bullet that is new, and outlasts whatever is done to it. -/
structure Piece.Lasting (P : Piece → Prop) : Prop where
  make (position : Vec3) (heading speed : Binary32) (plane : Plane) :
    P ⟨.make position heading speed plane, false⟩
  shooter (position : Vec3) (plane : Plane) : P ⟨.shooter position plane, false⟩
  fired {e : Engine} {source b : Bullet} (h : .fired b ∈ (e.step source).2.2) : P ⟨b, false⟩
  touch {p : Piece} (h : P p) (touch : Touch) : P (p.touch touch)
  step {p : Piece} (h : P p) (e : Engine) : P (p.step e)

/-- What the act does to a bullet by itself is within `T`. -/
def Field.Act.Within (T : Touch → Prop) : Field.Act → Prop
  | .touch _ t => T t
  | _ => True

theorem Piece.integrate_eq_touch (e : Engine) (dt : Binary32) (p : Piece) :
    p.integrate e dt = p.touch (.tick dt e.settings.speedMultiplier) := rfl

namespace Field

theorem forall_mem_modify {P : Piece → Prop} {pieces : List Piece} (h : ∀ p ∈ pieces, P p)
    {change : Piece → Piece} (keeps : ∀ p, P p → P (change p)) (i : Nat) :
    ∀ p ∈ pieces.modify i change, P p := by
  intro p mem
  obtain ⟨j, lt, rfl⟩ := List.getElem_of_mem mem
  rw [List.getElem_modify]
  split
  · exact keeps _ (h _ (List.getElem_mem _))
  · exact h _ (List.getElem_mem _)

theorem forall_mem_add {P : Piece → Prop} {f : Field} (h : ∀ p ∈ f.pieces, P p)
    {bullets : List Bullet} (fresh : ∀ b ∈ bullets, P ⟨b, false⟩) :
    ∀ p ∈ (f.add bullets).pieces, P p := by
  intro p mem
  rcases List.mem_append.1 mem with mem | mem
  · exact h p mem
  · obtain ⟨b, hb, rfl⟩ := List.mem_map.1 mem
    exact fresh b hb

/-- The engine changes by steps and settings only. -/
theorem act_engine (f : Field) (a : Act) :
    (f.act a).engine = f.engine ∨ (∃ b, (f.act a).engine = (f.engine.step b).1) ∨
      ∃ adjustment, (f.act a).engine = f.engine.adjust adjustment := by
  cases a with
  | step i =>
    simp only [act]
    split
    · exact .inr (.inl ⟨_, rfl⟩)
    · exact .inl rfl
  | adjust adjustment => exact .inr (.inr ⟨adjustment, rfl⟩)
  | _ => exact .inl rfl

end Field

namespace Piece.LastingUnder

variable {T : Touch → Prop} {P : Piece → Prop} {f : Field}

theorem act (lasting : LastingUnder T P) (h : ∀ p ∈ f.pieces, P p) {a : Field.Act}
    (within : a.Within T) : ∀ p ∈ (f.act a).pieces, P p := by
  cases a with
  | make position heading speed plane =>
    apply Field.forall_mem_add h
    intro b mem
    rw [List.mem_singleton.1 mem]
    exact lasting.make position heading speed plane
  | shooter position plane =>
    apply Field.forall_mem_add h
    intro b mem
    rw [List.mem_singleton.1 mem]
    exact lasting.shooter position plane
  | touch i touch => exact Field.forall_mem_modify h (fun _ h => lasting.touch h within) i
  | step i =>
    simp only [Field.act]
    split
    · rename_i p found
      apply Field.forall_mem_add
      · exact Field.forall_mem_modify h (fun _ h => lasting.step h f.engine) i
      · intro b mem
        obtain ⟨event, fired, isFired⟩ := List.mem_filterMap.1 mem
        cases event <;> cases isFired
        exact lasting.fired fired
    · exact h
  | integrate i dt =>
    apply Field.forall_mem_modify h
    intro p h
    rw [integrate_eq_touch]
    exact lasting.tick h _ _
  | adjust adjustment => exact h

theorem run (lasting : LastingUnder T P) (h : ∀ p ∈ f.pieces, P p) {acts : List Field.Act}
    (within : ∀ a ∈ acts, a.Within T) : ∀ p ∈ (f.run acts).pieces, P p := by
  induction acts generalizing f with
  | nil => exact h
  | cons a rest ih =>
    rw [List.forall_mem_cons] at within
    exact ih (lasting.act h within.1) within.2

end Piece.LastingUnder

namespace Piece.Lasting

variable {P : Piece → Prop} {f : Field}

theorem under (lasting : Lasting P) : LastingUnder (fun _ => True) P where
  make := lasting.make
  shooter := lasting.shooter
  fired := lasting.fired
  touch h touch _ := lasting.touch h touch
  tick h dt multiplier := lasting.touch h (.tick dt multiplier)
  step := lasting.step

theorem run (lasting : Lasting P) (h : ∀ p ∈ f.pieces, P p) (acts : List Field.Act) :
    ∀ p ∈ (f.run acts).pieces, P p := by
  apply lasting.under.run h
  intro a _
  cases a <;> exact trivial

end Piece.Lasting

end Danmaku
