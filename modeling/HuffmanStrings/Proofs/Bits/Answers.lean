import HuffmanStrings.Bits.Writer

/-!
What an output answers to a writer. Each offer of a byte is answered, interruptions aside, by taking the byte or by a
failure, and whatever a writer does fails just if one of the answers is a failure.
-/

namespace HuffmanStrings

def OfferReply.Fails : OfferReply → Prop
  | accepted => False
  | refused _ => True
  | nothing => True
  | interrupted => False

namespace ByteOutput

structure Answers (output : ByteOutput) (answers : List OfferReply) (output' : ByteOutput) : Prop where
  replies : output.replies = answers ++ output'.replies
  flushFault : output'.flushFault = output.flushFault

variable {output output' output'' : ByteOutput} {answers others : List OfferReply}

theorem Answers.none (output : ByteOutput) : output.Answers [] output :=
  ⟨rfl, rfl⟩

theorem Answers.trans (first : output.Answers answers output') (second : output'.Answers others output'') :
    output.Answers (answers ++ others) output'' where
  replies := by rw [first.replies, second.replies, List.append_assoc]
  flushFault := second.flushFault.trans first.flushFault

variable {τ υ α β : Type} {outputOf : τ → ByteOutput}

/-- The output has given answers up to this result, which is an input/output failure if one of them fails, and else a
success. -/
inductive Answered (outputOf : τ → ByteOutput) (output : ByteOutput) : EStateM.Result Failure τ α → Prop
  | ok {value : α} {s : τ} {answers : List OfferReply} : output.Answers answers (outputOf s) →
      (∀ answer ∈ answers, ¬answer.Fails) → Answered outputOf output (.ok value s)
  | error {fault : IoFault} {s : τ} {answers : List OfferReply} : output.Answers answers (outputOf s) →
      (∃ answer ∈ answers, answer.Fails) → Answered outputOf output (.error (.io fault) s)

theorem Answered.after {result : EStateM.Result Failure τ α} (later : Answered outputOf output' result)
    (first : output.Answers answers output') (taken : ∀ answer ∈ answers, ¬answer.Fails) :
    Answered outputOf output result := by
  cases later with
  | ok second takenToo =>
    exact .ok (first.trans second) fun answer member => (List.mem_append.1 member).elim (taken answer) (takenToo answer)
  | error second failed =>
    obtain ⟨answer, member, fails⟩ := failed
    exact .error (first.trans second) ⟨answer, List.mem_append_right _ member, fails⟩

theorem Answered.map {act : EStateM Failure τ α} {s : τ} (answered : Answered outputOf output (act s)) (f : α → β) :
    Answered outputOf output ((f <$> act) s) := by
  simp only [Functor.map, EStateM.map]
  generalize act s = result at answered
  cases answered with
  | ok given taken => exact .ok given taken
  | error given failed => exact .error given failed

theorem Answered.length_le {value : α} {s : τ} (answered : Answered outputOf output (.ok value s)) :
    (outputOf s).replies.length ≤ output.replies.length := by
  cases answered with
  | ok given =>
    rw [given.replies, List.length_append]
    exact Nat.le_add_left ..

theorem Answered.length_lt {failure : Failure} {s : τ}
    (answered : Answered outputOf output (.error failure s : EStateM.Result Failure τ α)) :
    (outputOf s).replies.length < output.replies.length := by
  cases answered with
  | error given failed =>
    obtain ⟨answer, member, -⟩ := failed
    rw [given.replies, List.length_append]
    exact Nat.lt_add_of_pos_left (List.length_pos_of_mem member)

theorem offer_answers (byte : UInt8) (accepted : Array UInt8) (replies : List OfferReply) :
    ∃ answers, replies = answers ++ (offer byte accepted replies).2.2 ∧
      match (offer byte accepted replies).1 with
      | .ok _ => ∀ answer ∈ answers, ¬answer.Fails
      | .error _ => ∃ answer ∈ answers, answer.Fails := by
  fun_induction offer byte accepted replies with
  | case1 => exact ⟨[], rfl, by simp⟩
  | case2 => exact ⟨[.accepted], rfl, by simp [OfferReply.Fails]⟩
  | case3 fault replies => exact ⟨[.refused fault], rfl, by simp [OfferReply.Fails]⟩
  | case4 => exact ⟨[.nothing], rfl, by simp [OfferReply.Fails]⟩
  | case5 replies ih =>
    obtain ⟨answers, split, outcome⟩ := ih
    refine ⟨.interrupted :: answers, congrArg (.interrupted :: ·) split, ?_⟩
    simpa [OfferReply.Fails] using outcome

theorem answered_put (byte : UInt8) (output : ByteOutput) : Answered id output (put byte output) := by
  obtain ⟨answers, split, outcome⟩ := offer_answers byte output.accepted output.replies
  unfold put
  split
  · rename_i accepted replies offered
    rw [offered] at split outcome
    exact .ok ⟨split, rfl⟩ outcome
  · rename_i fault accepted replies offered
    rw [offered] at split outcome
    exact .error ⟨split, rfl⟩ outcome

end ByteOutput

namespace BitWriter

open ByteOutput (Answered)

theorem answered_flush (w : BitWriter) : Answered output w.output (flush w) := by
  have answered := ByteOutput.answered_put w.pending w.output
  unfold flush
  generalize ByteOutput.put w.pending w.output = result at answered
  cases answered with
  | ok first taken => exact .ok first taken
  | error first failed => exact .error first failed

theorem answered_flushIfFull (w : BitWriter) : Answered output w.output (flushIfFull w) := by
  unfold flushIfFull
  split
  · exact answered_flush w
  · exact .ok (.none w.output) (by simp)

theorem answered_writeFrom (value : UInt64) (remaining : Nat) (w : BitWriter) :
    Answered output w.output (writeFrom value remaining w) := by
  fun_induction writeFrom value remaining w with
  | case1 w => exact answered_flushIfFull w
  | case2 remaining w more failure w' refused =>
    have answered := answered_flushIfFull w
    rwa [refused] at answered
  | case3 remaining w more w' flushed ih =>
    have answered := answered_flushIfFull w
    rw [flushed] at answered
    cases answered with
    | ok first taken => exact ih.after first taken

theorem answered_write (value : UInt64) {count : Nat} (valid : ValidCount count) (w : BitWriter) :
    Answered output w.output (BitOutput.write value count w) := by
  simp only [BitOutput.write, write, if_pos valid]
  exact answered_writeFrom value count w

theorem answered_pad (w : BitWriter) : Answered output w.output (pad w) := by
  unfold pad
  split
  · exact .ok (.none w.output) (by simp)
  · exact w.answered_flush.map _

end BitWriter

end HuffmanStrings
