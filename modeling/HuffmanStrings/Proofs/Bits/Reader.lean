import Mathlib
import HuffmanStrings.Bits.Reader
import HuffmanStrings.Proofs.Bits.Byte
import HuffmanStrings.Proofs.Bits.Calls

/-!
Reading from an input that may refuse. The bits that are held and those of the bytes to come are what is left of the
data; a call takes its bits from the front of that, also when it fails half-way, and moves the position as far.
-/

namespace HuffmanStrings

inductive ReaderAction
  | read (count : Nat)
  | readBit
  | exhausted
  deriving DecidableEq, Repr

inductive ReaderReply
  | number (value : Nat)
  | bit (value : Bool)
  | exhausted (answer : Bool)
  deriving DecidableEq, Repr

def ReaderAction.onReader : ReaderAction → EStateM Failure BitReader ReaderReply
  | read count => (fun value => .number value.toNat) <$> BitInput.read count
  | readBit => .bit <$> BitInput.readBit
  | exhausted => .exhausted <$> BitInput.exhausted

theorem ByteInput.request_cases (replies : List RequestReply) :
    (∃ later, request replies = (.ok (), later) ∧ later <:+ replies) ∨
    ∃ fault later, request replies = (.error fault, later) ∧ later <:+ replies ∧ .refused fault ∈ replies := by
  fun_induction request replies with
  | case1 => exact .inl ⟨[], rfl, List.suffix_rfl⟩
  | case2 replies => exact .inl ⟨replies, rfl, List.suffix_cons ..⟩
  | case3 fault replies => exact .inr ⟨fault, replies, rfl, List.suffix_cons .., List.mem_cons_self ..⟩
  | case4 replies ih =>
    rcases ih with ⟨later, answered, within⟩ | ⟨fault, later, refused, within, member⟩
    · exact .inl ⟨later, answered, within.trans (List.suffix_cons ..)⟩
    · exact .inr ⟨fault, later, refused, within.trans (List.suffix_cons ..), List.mem_cons_of_mem _ member⟩

namespace BitReader

def held (r : BitReader) : List Bool :=
  (Bits.ofNat 8 r.pending.toNat).drop (8 - r.fill)

def rest (r : BitReader) : List Bool :=
  r.held ++ Bits.ofBytes r.input.bytes

/-- The reader has gone past some of its bits, and fetched bytes for it as far as needed. -/
structure Passed (r : BitReader) (count : Nat) (r' : BitReader) : Prop where
  fill_le : r'.fill ≤ 8
  rest : r'.rest = r.rest.drop count
  position : r'.position = r.position + count
  bytes : r'.input.bytes <:+ r.input.bytes
  replies : r'.input.replies <:+ r.input.replies

variable {r r' r'' : BitReader} {count more : Nat}

theorem length_held (fill_le : r.fill ≤ 8) : r.held.length = r.fill := by
  rw [held, List.length_drop, Bits.length_ofNat, Nat.sub_sub_self fill_le]

theorem length_rest (fill_le : r.fill ≤ 8) : r.rest.length = r.fill + 8 * r.input.bytes.length := by
  rw [rest, List.length_append, length_held fill_le, Bits.length_ofBytes]

section Steps

theorem Passed.none (fill_le : r.fill ≤ 8) : r.Passed 0 r :=
  ⟨fill_le, rfl, rfl, List.suffix_rfl, List.suffix_rfl⟩

theorem Passed.trans (first : r.Passed count r') (second : r'.Passed more r'') : r.Passed (count + more) r'' where
  fill_le := second.fill_le
  rest := by rw [second.rest, first.rest, List.drop_drop]
  position := by rw [second.position, first.position, Nat.add_assoc]
  bytes := second.bytes.trans first.bytes
  replies := second.replies.trans first.replies

theorem passed_pass (fill_le : r.fill ≤ 8) (within : count ≤ r.fill) : r.Passed count (r.pass count) where
  fill_le := (Nat.sub_le ..).trans fill_le
  rest := by
    have start : 8 - (r.fill - count) = 8 - r.fill + count := by omega
    rw [rest, rest, List.drop_append_of_le_length (by rwa [length_held fill_le]), held, held, List.drop_drop, ← start]
    rfl
  position := rfl
  bytes := List.suffix_rfl
  replies := List.suffix_rfl

/-- A bit is held then; or there is none to come; or the input refused, and nothing was lost. -/
theorem fetch_cases (fill_le : r.fill ≤ 8) :
    (∃ r', fetch r = .ok true r' ∧ r'.fill ≠ 0 ∧ r.Passed 0 r') ∨
    (∃ r', fetch r = .ok false r' ∧ r.rest = [] ∧ r.Passed 0 r') ∨
    ∃ fault r', fetch r = .error (.io fault) r' ∧ .refused fault ∈ r.input.replies ∧ r.Passed 0 r' := by
  by_cases holds : r.fill ≠ 0
  · exact .inl ⟨r, if_pos holds, holds, .none fill_le⟩
  · have empty : r.held = [] := List.eq_nil_of_length_eq_zero ((length_held fill_le).trans (not_not.1 holds))
    simp only [fetch, if_neg holds, ByteInput.take]
    rcases ByteInput.request_cases r.input.replies with ⟨later, ready, within⟩ | ⟨fault, later, refused, within, member⟩
    · cases bytes : r.input.bytes with
      | nil =>
        simp only [ready]
        refine .inr (.inl ⟨_, rfl, ?_, fill_le, ?_, rfl, ?_, within⟩)
        · rw [rest, empty, bytes]
          rfl
        · simp only [rest, held, bytes]
          rfl
        · rw [bytes]
      | cons byte bytes' =>
        simp only [ready]
        refine .inl ⟨_, rfl, Nat.succ_ne_zero 7, Nat.le_refl 8, ?_, rfl, ?_, within⟩
        · rw [rest, rest, empty, bytes]
          rfl
        · rw [bytes]
          exact List.suffix_cons ..
    · simp only [refused]
      exact .inr (.inr ⟨fault, _, rfl, member, fill_le, rfl, rfl, List.suffix_rfl, within⟩)

theorem shiftLeft_or_extract {before : List Bool} (fill_le : r.fill ≤ 8) (positive : 0 < count) (within : count ≤ r.fill)
    (room : before.length + count ≤ 64) :
    (UInt64.ofNat (Bits.toNat before) <<< UInt64.ofNat count) ||| Bits.extract r.pending (8 - r.fill) count =
      UInt64.ofNat (Bits.toNat (before ++ r.rest.take count)) := by
  have inside : 8 - r.fill + count ≤ 8 := by omega
  have taken : r.rest.take count = (List.range' (8 - r.fill) count).map (Bits.ofByte r.pending) := by
    rw [rest, List.take_append_of_le_length (by rwa [length_held fill_le]), held, Bits.take_drop_ofNat_eight _ inside]
  rw [taken, Bits.shiftLeft_or_extract _ positive inside room]

/-- Reading on takes what is asked for, or all that is left, or breaks off at a refusal. -/
theorem readFrom_cases (requested : Nat) {remaining : Nat} (before : List Bool) {value : UInt64} (fill_le : r.fill ≤ 8)
    (room : before.length + remaining ≤ 64) (spelled : value = UInt64.ofNat (Bits.toNat before)) :
    (∃ r', readFrom requested remaining value r =
        .ok (UInt64.ofNat (Bits.toNat (before ++ r.rest.take remaining))) r' ∧
      remaining ≤ r.rest.length ∧ r.Passed remaining r') ∨
    (∃ r', readFrom requested remaining value r =
        .error (.outOfBits requested (requested - (remaining - r.rest.length))) r' ∧
      r.rest.length < remaining ∧ r.Passed r.rest.length r') ∨
    ∃ fault r' count, readFrom requested remaining value r = .error (.io fault) r' ∧
      .refused fault ∈ r.input.replies ∧ count < remaining ∧ count ≤ r.rest.length ∧ r.Passed count r' := by
  fun_induction readFrom requested remaining value r generalizing before with
  | case1 value r =>
    refine .inl ⟨r, ?_, Nat.zero_le _, .none fill_le⟩
    rw [spelled, List.take_zero, List.append_nil]
  | case2 remaining value r ended failure r' refused =>
    rcases fetch_cases fill_le with ⟨_, fetched, -⟩ | ⟨_, fetched, -⟩ | ⟨fault, _, fetched, member, passed⟩ <;>
      rw [refused] at fetched <;> cases fetched
    exact .inr (.inr ⟨fault, r', 0, rfl, member, Nat.pos_of_ne_zero ended, Nat.zero_le _, passed⟩)
  | case3 remaining value r ended r' nothing =>
    rcases fetch_cases fill_le with ⟨_, fetched, -⟩ | ⟨_, fetched, none, passed⟩ | ⟨_, _, fetched, -⟩ <;>
      rw [nothing] at fetched <;> cases fetched
    rw [none, List.length_nil]
    exact .inr (.inl ⟨r', rfl, Nat.pos_of_ne_zero ended, passed⟩)
  | case4 remaining value r ended r' fetched share chunk =>
    rename_i ih
    rcases fetch_cases fill_le with ⟨_, again, holds, first⟩ | ⟨_, again, -⟩ | ⟨_, _, again, -⟩ <;>
      rw [fetched] at again <;> cases again
    -- The fetched byte gives its share, which joins the bits before; the later bytes follow by induction.
    have within : share ≤ r'.fill := Nat.min_le_right ..
    have few : share ≤ remaining := Nat.min_le_left ..
    have passed := first.trans (passed_pass first.fill_le within)
    rw [Nat.zero_add] at passed
    have same : r'.rest = r.rest := first.rest
    have size : r.rest.length = r'.fill + 8 * r'.input.bytes.length := same ▸ length_rest first.fill_le
    have number := shiftLeft_or_extract first.fill_le (by omega : 0 < share) within
      (by omega : before.length + share ≤ 64)
    rw [same, ← spelled] at number
    have length : (before ++ r.rest.take share).length = before.length + share := by
      rw [List.length_append, List.length_take, Nat.min_eq_left (by omega)]
    have ahead := passed.rest
    have left := congrArg List.length ahead
    rw [List.length_drop] at left
    have later := ih _ passed.fill_le (by omega) number
    rw [left, ahead, List.append_assoc, ← List.take_add, Nat.add_sub_cancel' few] at later
    rcases later with ⟨r'', read, enough, last⟩ | ⟨r'', short, lacking, last⟩ |
      ⟨fault, r'', count, refused, member, brief, inside, last⟩
    · have whole := passed.trans last
      rw [Nat.add_sub_cancel' few] at whole
      exact .inl ⟨r'', read, by omega, whole⟩
    · have whole := passed.trans last
      rw [Nat.add_sub_cancel' (by omega)] at whole
      rw [Nat.sub_sub_sub_cancel_right (by omega)] at short
      exact .inr (.inl ⟨r'', short, by omega, whole⟩)
    · exact .inr (.inr ⟨fault, r'', share + count, refused, passed.replies.mem member, by omega, by omega,
        passed.trans last⟩)

theorem read_cases (fill_le : r.fill ≤ 8) (valid : ValidCount count) :
    (∃ r', read count r = .ok (UInt64.ofNat (Bits.toNat (r.rest.take count))) r' ∧ count ≤ r.rest.length ∧
      r.Passed count r') ∨
    (∃ r', read count r = .error (.outOfBits count r.rest.length) r' ∧ r.rest.length < count ∧
      r.Passed r.rest.length r') ∨
    ∃ fault r' taken, read count r = .error (.io fault) r' ∧ .refused fault ∈ r.input.replies ∧ taken < count ∧
      taken ≤ r.rest.length ∧ r.Passed taken r' := by
  simp only [read, if_pos valid]
  rcases readFrom_cases count [] fill_le (by simpa using valid.2) rfl with
    ⟨r', read, enough, passed⟩ | ⟨r', short, few, passed⟩ | broken
  · exact .inl ⟨r', read, enough, passed⟩
  · rw [Nat.sub_sub_self few.le] at short
    exact .inr (.inl ⟨r', short, few, passed⟩)
  · exact .inr (.inr broken)

theorem exhausted_cases (fill_le : r.fill ≤ 8) :
    (∃ r', exhausted r = .ok (decide (r.rest = [])) r' ∧ r.Passed 0 r') ∨
    ∃ fault r', exhausted r = .error (.io fault) r' ∧ .refused fault ∈ r.input.replies ∧ r.Passed 0 r' := by
  simp only [exhausted, Functor.map, EStateM.map]
  rcases fetch_cases fill_le with ⟨r', fetched, holds, passed⟩ | ⟨r', fetched, none, passed⟩ |
    ⟨fault, r', refused, member, passed⟩
  · have more : r.rest ≠ [] := by
      have same : r'.rest = r.rest := passed.rest
      have size := length_rest passed.fill_le
      rw [same] at size
      rw [← List.length_pos_iff, size]
      omega
    rw [fetched, decide_eq_false more]
    exact .inl ⟨r', rfl, passed⟩
  · rw [fetched, decide_eq_true none]
    exact .inl ⟨r', rfl, passed⟩
  · rw [refused]
    exact .inr ⟨fault, r', rfl, member, passed⟩

end Steps

section Calls

/-- The reader stands in the data: what it has fetched are the first bytes, of which it holds at most the last; what is
left are the bits from its position on. -/
structure Follows (r : BitReader) (data : List UInt8) : Prop where
  fill_le : r.fill ≤ 8
  fetched : ∃ front, data = front ++ r.input.bytes ∧ r.position + r.fill = 8 * front.length
  rest : r.rest = (Bits.ofBytes data).drop r.position

/-- The ways in which a call ends on a list of bits. What is read are the bits from the position on. Where they do not
suffice all that are left are passed, and their number is reported. To ask for the end moves nothing. -/
inductive Ended (bits : List Bool) : Call ReaderAction BitReader ReaderReply → Prop
  | read {r r' : BitReader} {count : Nat} : ValidCount count → r'.position ≤ bits.length →
      r'.position = r.position + count →
      Ended bits ⟨.read count, r, .ok (.number (Bits.toNat ((bits.drop r.position).take count))) r'⟩
  | short {r r' : BitReader} {count available : Nat} : ValidCount count → available < count →
      r'.position = bits.length → r'.position = r.position + available →
      Ended bits ⟨.read count, r, .error (.outOfBits count available) r'⟩
  | brokenOff {r r' : BitReader} {count : Nat} {fault : IoFault} : ValidCount count → r'.position ≤ bits.length →
      r.position ≤ r'.position → r'.position < r.position + count →
      Ended bits ⟨.read count, r, .error (.io fault) r'⟩
  | rejected {r : BitReader} {count : Nat} : ¬ValidCount count →
      Ended bits ⟨.read count, r, .error (.invalidBitCount count) r⟩
  | bit {r r' : BitReader} {bit : Bool} : bits[r.position]? = some bit → r'.position = r.position + 1 →
      Ended bits ⟨.readBit, r, .ok (.bit bit) r'⟩
  | noBit {r r' : BitReader} {failure : Failure} : Ended bits ⟨.read 1, r, .error failure r'⟩ →
      Ended bits ⟨.readBit, r, .error failure r'⟩
  | answered {r r' : BitReader} : r'.rest = r.rest → r'.position = r.position →
      Ended bits ⟨.exhausted, r, .ok (.exhausted (decide (r.position = bits.length))) r'⟩
  | unanswered {r r' : BitReader} {fault : IoFault} : r'.rest = r.rest → r'.position = r.position →
      Ended bits ⟨.exhausted, r, .error (.io fault) r'⟩

/-- The bits that a call hands out, or that are no longer left when it has failed. -/
def taken (call : Call ReaderAction BitReader ReaderReply) : List Bool :=
  match call.action, call.result with
  | .read count, .ok (.number value) _ => Bits.ofNat count value
  | .readBit, .ok (.bit value) _ => [value]
  | _, .ok _ _ => []
  | _, .error _ r' => call.before.rest.take (call.before.rest.length - r'.rest.length)

variable {data : List UInt8}

theorem follows_new (data : List UInt8) (replies : List RequestReply) :
    Follows { input := { bytes := data, replies } } data where
  fill_le := Nat.zero_le 8
  fetched := ⟨[], rfl, rfl⟩
  rest := rfl

theorem Follows.position_le (follows : r.Follows data) : r.position ≤ (Bits.ofBytes data).length := by
  obtain ⟨front, rfl, fetched⟩ := follows.fetched
  rw [Bits.length_ofBytes, List.length_append]
  omega

theorem Follows.length_rest (follows : r.Follows data) :
    r.position + r.rest.length = (Bits.ofBytes data).length := by
  rw [follows.rest, List.length_drop, Nat.add_sub_cancel' follows.position_le]

theorem Follows.passed (follows : r.Follows data) (passed : r.Passed count r') (within : count ≤ r.rest.length) :
    r'.Follows data where
  fill_le := passed.fill_le
  fetched := by
    obtain ⟨front, split, fetched⟩ := follows.fetched
    obtain ⟨middle, more⟩ := passed.bytes
    have before := BitReader.length_rest follows.fill_le
    have after := BitReader.length_rest passed.fill_le
    have position := passed.position
    rw [passed.rest, List.length_drop] at after
    refine ⟨front ++ middle, ?_, ?_⟩
    · rw [split, ← more, List.append_assoc]
    · rw [← more, List.length_append] at before
      rw [List.length_append]
      omega
  rest := by rw [passed.rest, passed.position, follows.rest, List.drop_drop]

theorem Follows.take_add (follows : r.Follows data) (passed : r.Passed count r') :
    (Bits.ofBytes data).take r'.position = (Bits.ofBytes data).take r.position ++ r.rest.take count := by
  rw [passed.position, List.take_add, follows.rest]

def Accounted (data : List UInt8) (call : Call ReaderAction BitReader ReaderReply) : Prop :=
  Ended (Bits.ofBytes data) call ∧ call.after.Follows data ∧
    (Bits.ofBytes data).take call.after.position = (Bits.ofBytes data).take call.before.position ++ taken call

theorem taken_error (passed : r.Passed count r') (within : count ≤ r.rest.length) (action : ReaderAction)
    (failure : Failure) : taken ⟨action, r, .error failure r'⟩ = r.rest.take count := by
  have left : r.rest.length - r'.rest.length = count := by
    rw [passed.rest, List.length_drop, Nat.sub_sub_self within]
  rw [← left]
  cases action <;> rfl

theorem accounted_read (follows : r.Follows data) (count : Nat) :
    Accounted data (.make ReaderAction.onReader r (.read count)) := by
  have total := follows.length_rest
  by_cases valid : ValidCount count
  · simp only [Call.make, ReaderAction.onReader, BitInput.read, Functor.map, EStateM.map]
    rcases read_cases follows.fill_le valid with ⟨r', read, enough, passed⟩ | ⟨r', short, few, passed⟩ |
      ⟨fault, r', some, refused, -, fewer, within, passed⟩
    · have size : (r.rest.take count).length = count := by rw [List.length_take, Nat.min_eq_left enough]
      have small : Bits.toNat (r.rest.take count) < 2 ^ 64 :=
        (Bits.toNat_lt _).trans_le (Nat.pow_le_pow_right (by decide) (size.trans_le valid.2))
      have position := passed.position
      rw [read]
      simp only [UInt64.toNat_ofNat_of_lt' small]
      refine ⟨?_, follows.passed passed enough, (follows.take_add passed).trans ?_⟩
      · rw [follows.rest]
        exact .read valid (by omega) position
      · have spelled := Bits.ofNat_toNat (r.rest.take count)
        rw [size] at spelled
        exact congrArg (List.take r.position (Bits.ofBytes data) ++ ·) spelled.symm
    · have position := passed.position
      rw [short]
      refine ⟨.short valid few (by omega) position, follows.passed passed (Nat.le_refl _), ?_⟩
      rw [taken_error passed (Nat.le_refl _)]
      exact follows.take_add passed
    · have position := passed.position
      rw [refused]
      refine ⟨.brokenOff valid (by omega) (by omega) (by omega), follows.passed passed within, ?_⟩
      rw [taken_error passed within]
      exact follows.take_add passed
  · have rejected : (ReaderAction.read count).onReader r = .error (.invalidBitCount count) r := by
      simp only [ReaderAction.onReader, BitInput.read, BitReader.read, if_neg valid, Functor.map, EStateM.map]
    rw [Call.make, rejected]
    refine ⟨.rejected valid, follows, ?_⟩
    rw [taken_error (.none follows.fill_le) (Nat.zero_le _), List.take_zero, List.append_nil]
    rfl

theorem accounted_readBit (follows : r.Follows data) : Accounted data (.make ReaderAction.onReader r .readBit) := by
  have valid : ValidCount 1 := by decide
  have asNumber := accounted_read follows 1
  rcases read_cases follows.fill_le valid with ⟨r', read, enough, passed⟩ | failed
  · obtain ⟨bit, later, ahead⟩ := List.exists_cons_of_length_pos enough
    have reply : ReaderAction.readBit.onReader r = .ok (.bit bit) r' := by
      simp only [ReaderAction.onReader, BitInput.readBit, BitInput.read, Functor.map, EStateM.map, read, ahead]
      cases bit <;> rfl
    have here : (Bits.ofBytes data)[r.position]? = some bit := by
      rw [follows.rest] at ahead
      rw [← List.head?_drop, ahead, List.head?_cons]
    rw [Call.make, reply]
    refine ⟨.bit here passed.position, follows.passed passed enough, (follows.take_add passed).trans ?_⟩
    rw [ahead]
    rfl
  · obtain ⟨failure, r', read⟩ : ∃ failure r', read 1 r = .error failure r' := by
      rcases failed with ⟨r', short, -⟩ | ⟨fault, r', _, refused, -⟩
      · exact ⟨_, r', short⟩
      · exact ⟨_, r', refused⟩
    have number : (ReaderAction.read 1).onReader r = .error failure r' := by
      simp only [ReaderAction.onReader, BitInput.read, Functor.map, EStateM.map, read]
    have reply : ReaderAction.readBit.onReader r = .error failure r' := by
      simp only [ReaderAction.onReader, BitInput.readBit, BitInput.read, Functor.map, EStateM.map, read]
    rw [Call.make, number] at asNumber
    rw [Call.make, reply]
    exact ⟨.noBit asNumber.1, asNumber.2⟩

theorem accounted_exhausted (follows : r.Follows data) :
    Accounted data (.make ReaderAction.onReader r .exhausted) := by
  have total := follows.length_rest
  simp only [Call.make, ReaderAction.onReader, BitInput.exhausted, Functor.map, EStateM.map]
  rcases exhausted_cases follows.fill_le with ⟨r', answered, passed⟩ | ⟨fault, r', refused, -, passed⟩
  · have ended : decide (r.rest = []) = decide (r.position = (Bits.ofBytes data).length) := by
      rw [decide_eq_decide, ← List.length_eq_zero_iff]
      omega
    rw [answered, ended]
    refine ⟨.answered passed.rest passed.position, follows.passed passed (Nat.zero_le _), ?_⟩
    exact follows.take_add passed
  · rw [refused]
    refine ⟨.unanswered passed.rest passed.position, follows.passed passed (Nat.zero_le _), ?_⟩
    rw [taken_error passed (Nat.zero_le _)]
    exact follows.take_add passed

theorem accounted_make (follows : r.Follows data) (action : ReaderAction) :
    Accounted data (.make ReaderAction.onReader r action) := by
  cases action with
  | read count => exact accounted_read follows count
  | readBit => exact accounted_readBit follows
  | exhausted => exact accounted_exhausted follows

/-- Whatever an input delivers, refuses or interrupts: each call ends in one of the ways of `Ended`, so that what is read
is what the data have at the position; the reader stands in the data; and its position is the number of bits that were
handed out or passed by a read that failed, which are the first of the data in a row. -/
theorem position_kept (data : List UInt8) (replies : List RequestReply) (actions : List ReaderAction) :
    let start : BitReader := { input := { bytes := data, replies } }
    let r := Call.finish ReaderAction.onReader actions start
    (∀ call ∈ Call.makeAll ReaderAction.onReader actions start, Ended (Bits.ofBytes data) call) ∧
    r.Follows data ∧
    (Call.makeAll ReaderAction.onReader actions start).flatMap taken = (Bits.ofBytes data).take r.position ∧
    ((Call.makeAll ReaderAction.onReader actions start).flatMap taken).length = r.position := by
  have step (r : BitReader) (action : ReaderAction) (follows : r.Follows data) := (accounted_make follows action).2.1
  have start := follows_new data replies
  have follows := Call.holds_finish step actions start
  have adds := Call.view_finish (fun r => (Bits.ofBytes data).take r.position) step
    (fun r action follows => (accounted_make follows action).2.2) actions start
  rw [List.take_zero, List.nil_append] at adds
  refine ⟨Call.forall_makeAll step (fun r action follows => (accounted_make follows action).1) actions start, follows,
    adds.symm, ?_⟩
  rw [← adds, List.length_take, Nat.min_eq_left follows.position_le]

end Calls

end BitReader

end HuffmanStrings
