import HuffmanStrings.Bits.Basic

/-!
What a coder works on: one end of a bit stream and an observer, which hears of every code written or read.
-/

namespace HuffmanStrings

/-- A code was written or read; `escaped` marks one that announces or carries a symbol without a word of its own. -/
inductive CodeEvent
  | encoded (bits : Nat) (escaped : Bool)
  | decoded (bits : Nat) (escaped : Bool)
  deriving DecidableEq, Repr

class Observer (ω : Type) where
  note : CodeEvent → ω → ω

instance : Observer Unit where
  note _ _ := ()

/-- Sums over the events of one direction, modulo `2 ^ 64`. -/
structure Tally where
  symbols : UInt64 := 0
  bits : UInt64 := 0
  escapes : UInt64 := 0
  deriving DecidableEq, Repr

def Tally.add (t : Tally) (bits : Nat) (escaped : Bool) : Tally where
  symbols := t.symbols + 1
  bits := t.bits + UInt64.ofNat bits
  escapes := if escaped then t.escapes + 1 else t.escapes

structure Statistics where
  encoded : Tally := {}
  decoded : Tally := {}
  deriving DecidableEq, Repr

def Statistics.note (event : CodeEvent) (s : Statistics) : Statistics :=
  match event with
  | .encoded bits escaped => { s with encoded := s.encoded.add bits escaped }
  | .decoded bits escaped => { s with decoded := s.decoded.add bits escaped }

instance : Observer Statistics where
  note := Statistics.note

structure Session (σ ω : Type) where
  medium : σ
  observer : ω
  deriving DecidableEq, Repr

namespace Session

variable {σ ω α : Type}

def onMedium (act : EStateM Failure σ α) : EStateM Failure (Session σ ω) α := fun s =>
  match act s.medium with
  | .ok value medium => .ok value { s with medium }
  | .error failure medium => .error failure { s with medium }

def note [Observer ω] (event : CodeEvent) : EStateM Failure (Session σ ω) Unit := fun s =>
  .ok () { s with observer := Observer.note event s.observer }

def exhausted [BitInput σ] : EStateM Failure (Session σ ω) Bool :=
  onMedium BitInput.exhausted

def remaining [BitInput σ] (s : Session σ ω) : Nat :=
  BitInput.remaining s.medium

end Session

/-!
Actions that never lead away from the end of their input, and actions that lead nearer to it whenever they
succeed. A loop over an action of the second kind ends.
-/

variable {τ α β : Type}

/-- Success leaves no more than there was. -/
def Keeps (left : τ → Nat) (act : EStateM Failure τ α) : Prop :=
  ∀ s value s', act s = .ok value s' → left s' ≤ left s

/-- Success leaves less than there was. -/
def Consumes (left : τ → Nat) (act : EStateM Failure τ α) : Prop :=
  ∀ s value s', act s = .ok value s' → left s' < left s

namespace Keeps

variable {left : τ → Nat}

theorem pure (value : α) : Keeps left (pure value : EStateM Failure τ α) := fun _ _ _ done => by
  cases done
  exact Nat.le_refl _

theorem throw (failure : Failure) : Keeps left (throw failure : EStateM Failure τ α) := fun _ _ _ done => by
  cases done

theorem bind {act : EStateM Failure τ α} {next : α → EStateM Failure τ β}
    (first : Keeps left act) (second : ∀ value, Keeps left (next value)) : Keeps left (act >>= next) :=
  fun _ _ _ done => by
    obtain ⟨middle, _, acted, rest⟩ := bind_eq_ok_iff.1 done
    exact Nat.le_trans (second middle _ _ _ rest) (first _ _ _ acted)

theorem map {act : EStateM Failure τ α} (keeps : Keeps left act) (f : α → β) : Keeps left (f <$> act) :=
  fun _ _ _ done => by
    obtain ⟨_, acted, _⟩ := map_eq_ok_iff.1 done
    exact keeps _ _ _ acted

end Keeps

namespace Consumes

variable {left : τ → Nat}

theorem keeps {act : EStateM Failure τ α} (consumes : Consumes left act) : Keeps left act :=
  fun _ _ _ done => Nat.le_of_lt (consumes _ _ _ done)

theorem bind {act : EStateM Failure τ α} {next : α → EStateM Failure τ β}
    (first : Consumes left act) (second : ∀ value, Keeps left (next value)) : Consumes left (act >>= next) :=
  fun _ _ _ done => by
    obtain ⟨middle, _, acted, rest⟩ := bind_eq_ok_iff.1 done
    exact Nat.lt_of_le_of_lt (second middle _ _ _ rest) (first _ _ _ acted)

theorem map {act : EStateM Failure τ α} (consumes : Consumes left act) (f : α → β) :
    Consumes left (f <$> act) :=
  fun _ _ _ done => by
    obtain ⟨_, acted, _⟩ := map_eq_ok_iff.1 done
    exact consumes _ _ _ acted

end Consumes

namespace Session

variable {σ ω : Type}

theorem consumes_onMedium [BitInput σ] {act : EStateM Failure σ α}
    (consumes : Consumes BitInput.remaining act) :
    Consumes remaining (onMedium act : EStateM Failure (Session σ ω) α) :=
  fun _ _ _ done => by
    unfold onMedium at done
    split at done
    case h_1 acted => cases done; exact consumes _ _ _ acted
    case h_2 => cases done

theorem keeps_onMedium [BitInput σ] {act : EStateM Failure σ α}
    (keeps : Keeps BitInput.remaining act) :
    Keeps remaining (onMedium act : EStateM Failure (Session σ ω) α) :=
  fun _ _ _ done => by
    unfold onMedium at done
    split at done
    case h_1 acted => cases done; exact keeps _ _ _ acted
    case h_2 => cases done

theorem keeps_note [BitInput σ] [Observer ω] (event : CodeEvent) :
    Keeps remaining (note event : EStateM Failure (Session σ ω) Unit) := fun _ _ _ done => by
  cases done
  exact Nat.le_refl _

theorem keeps_exhausted [BitInput σ] : Keeps remaining (exhausted : EStateM Failure (Session σ ω) Bool) :=
  keeps_onMedium fun _ _ _ done => BitInput.remaining_exhausted done

end Session

end HuffmanStrings
