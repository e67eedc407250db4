import HuffmanStrings.Codebook.Basic
import HuffmanStrings.Proofs.Code.Building
import HuffmanStrings.Proofs.Coder.Alike
import HuffmanStrings.Proofs.Coder.Text
import HuffmanStrings.Proofs.Coder.Training

/-!
Coders made anew. The lengths of a table are in canonical order, which grouping them by length leaves as it is, and all
else in a table follows from them and the escape: a table is made again from what is stored of it, and a coder from the
codebook of its tables. What is written and read does not depend on who listens.
-/

namespace HuffmanStrings

namespace Canonical

variable {α β : Type} (key : β → Nat) {list : List β}

theorem filter_append_of_least {least : Nat} (sorted : list.Pairwise fun a b => key a ≤ key b)
    (below : ∀ item ∈ list, least ≤ key item) :
    (list.filter fun item => key item = least) ++ (list.filter fun item => !decide (key item = least)) = list := by
  induction list with
  | nil => rfl
  | cons item rest ih =>
    rw [List.pairwise_cons] at sorted
    rw [List.forall_mem_cons] at below
    by_cases first : key item = least
    · simp only [first, decide_true, Bool.not_true, List.filter_cons_of_pos, List.filter_cons_of_neg,
        Bool.false_eq_true, not_false_eq_true, List.cons_append, ih sorted.2 below.2]
    · have above : ∀ other ∈ item :: rest, key other ≠ least := by
        rw [List.forall_mem_cons]
        refine ⟨first, fun other member => ?_⟩
        have := sorted.1 other member
        omega
      rw [List.filter_eq_nil_iff.2 (by simpa using above), List.nil_append, List.filter_eq_self.2 (by simpa using above)]

theorem flatMap_filter_eq_self {keys : List Nat} (ascending : keys.Pairwise (· < ·))
    (sorted : list.Pairwise fun a b => key a ≤ key b) (covered : ∀ item ∈ list, key item ∈ keys) :
    (keys.flatMap fun k => list.filter fun item => key item = k) = list := by
  induction keys generalizing list with
  | nil =>
    have empty : list = [] := List.eq_nil_iff_forall_not_mem.2 fun item member => List.not_mem_nil (covered item member)
    rw [empty]
    rfl
  | cons k keys ih =>
    rw [List.pairwise_cons] at ascending
    have absent : k ∉ keys := fun again => lt_irrefl k (ascending.1 k again)
    have below : ∀ item ∈ list, k ≤ key item := by
      intro item member
      rcases List.mem_cons.1 (covered item member) with same | later
      · exact same.ge
      · exact (ascending.1 _ later).le
    have others := ih ascending.2 (sorted.filter fun item => !decide (key item = k)) <| by
      intro item member
      simp only [List.mem_filter, Bool.not_eq_true', decide_eq_false_iff_not] at member
      exact (List.mem_cons.1 (covered item member.1)).resolve_left member.2
    rw [flatMap_filter_without key absent] at others
    rw [List.flatMap_cons, others]
    exact filter_append_of_least key sorted below

theorem order_eq_self {entries : List (α × Nat)}
    (range : ∀ entry ∈ entries, 1 ≤ entry.2 ∧ entry.2 ≤ maximumCodeLength)
    (ordered : entries.Pairwise fun a b => a.2 ≤ b.2) : order entries = entries := by
  apply flatMap_filter_eq_self (fun entry : α × Nat => entry.2) List.pairwise_lt_range' ordered
  intro entry member
  have := range entry member
  rw [List.mem_range'_1]
  omega

end Canonical

section Tables

variable {α : Type} [DecidableEq α]

theorem CodeTable.ofLengths_lengths (t : CodeTable α) : ofLengths t.lengths t.escape = .ok t :=
  ofLengths_eq_ok_iff.2
    ⟨t.realisable, t.escape_mem, (Canonical.order_eq_self t.realisable.range t.ordered).symm, rfl⟩

theorem StoredTable.toTable_ofTable (t : CodeTable α) : (ofTable t).toTable = .ok t := by
  have kept : (ofTable t).entries.map (fun entry => (entry.1, entry.2.toNat)) = t.lengths := by
    rw [ofTable, List.map_map]
    refine (List.map_congr_left fun entry member => ?_).trans (List.map_id t.lengths)
    have small : entry.2 < 256 := (t.realisable.range entry member).2.trans_lt (by decide)
    simp only [Function.comp_apply, UInt8.toNat_ofNat', Nat.mod_eq_of_lt small, id_eq]
  rw [toTable, kept]
  exact t.ofLengths_lengths

end Tables

theorem Codebook.toCoder_ofCoder (coder : ListCoder) : (ofCoder coder).toCoder = .ok coder := by
  have letters : (ofCoder coder).characters.toTable = .ok coder.texts.chars.table := StoredTable.toTable_ofTable _
  have phrases : (ofCoder coder).texts.toTable = .ok coder.texts.table := StoredTable.toTable_ofTable _
  have chars : CharCoder.ofTable coder.texts.chars.table = .ok coder.texts.chars := CharCoder.ofTable_eq_ok_iff.2 rfl
  have texts : TextCoder.ofTable coder.texts.table coder.texts.chars = .ok coder.texts :=
    TextCoder.ofTable_eq_ok_iff.2 ⟨rfl, rfl⟩
  simp only [toCoder, letters, phrases, Bind.bind, Except.bind, chars, texts]
  rfl

namespace Session

variable {σ ω υ : Type}

/-- The sessions are at one place in one medium, whatever their observers have heard. -/
def SameMedium (s : Session σ ω) (r : Session σ υ) : Prop :=
  s.medium = r.medium

theorem alike_onMedium_self {α : Type} (act : EStateM Failure σ α) :
    Alike (SameMedium (ω := ω) (υ := υ)) SameMedium (onMedium act) (onMedium act) := by
  intro s r same
  have still (medium : σ) : SameMedium (⟨medium, s.observer⟩ : Session σ ω) (⟨medium, r.observer⟩ : Session σ υ) := rfl
  simp only [onMedium, show s.medium = r.medium from same]
  cases act r.medium with
  | ok value medium => exact .ok (still medium)
  | error failure medium => exact .error (still medium)

theorem inStep_sameMedium [BitInput σ] [Observer ω] [Observer υ] :
    InStep (SameMedium (σ := σ) (ω := ω) (υ := υ)) SameMedium where
  read _ := alike_onMedium_self _
  exhausted := alike_onMedium_self _
  position same := congrArg BitInput.position same
  note _ _ _ same := .ok same
  stop same := same

end Session

open Session (SameMedium inStep_sameMedium)

namespace ListCoder

variable {ω υ κ : Type} [Observer ω] [Observer υ] (coder : ListCoder) (store : BitStore) (listener : ω) (other : υ)

theorem agree_deliver (consumer : Consumer κ String) (kept : κ) :
    Agree (fun final final' => SameMedium final.1 final'.1 ∧ final.2 = final'.2)
      (fun final final' => SameMedium final.1 final'.1 ∧ final.2 = final'.2)
      (coder.deliver consumer (⟨store, listener⟩, kept)) (coder.deliver consumer (⟨store, other⟩, kept)) := by
  have start : SameMedium (⟨store.rewound, listener⟩ : Session BitStore ω) (⟨store.rewound, other⟩ : Session BitStore υ) :=
    rfl
  obtain ⟨_, -, -, agree⟩ :=
    Decoder.deliversAlike (coder.texts.alike_texts inStep_sameMedium) start consumer kept
  exact agree

theorem alike_collect (limit : Option Nat) :
    Alike (SameMedium (σ := BitStore) (ω := ω) (υ := υ)) SameMedium (coder.collect limit) (coder.collect limit) := by
  unfold collect
  split
  · exact .pure []
  · exact .bind (Session.alike_onMedium_self _) fun _ =>
      Decoder.alike_collect (coder.texts.alike_texts inStep_sameMedium) limit

end ListCoder

/-- A table is made again from its lengths and its escape, and a coder from its codebook. The coder made again writes
the same bits for each list, and from each store it delivers the same to the same result and leaves the store at the
same place, whoever listens to the one and to the other. -/
theorem rebuilt_eq :
    (∀ {α : Type} [DecidableEq α] (t : CodeTable α), CodeTable.ofLengths t.lengths t.escape = .ok t) ∧
    ∀ coder : ListCoder, ∃ rebuilt, (Codebook.ofCoder coder).toCoder = .ok rebuilt ∧ rebuilt = coder ∧
      ∀ {ω υ : Type} [Observer ω] [Observer υ] (listener : ω) (other : υ),
        (∀ items, ∃ store heard heard', coder.encodeList items listener = .ok store heard ∧
          rebuilt.encodeList items other = .ok store heard') ∧
        ∀ store : BitStore,
          (∀ {κ : Type} (consumer : Consumer κ String) (kept : κ),
            Agree (fun final final' => SameMedium final.1 final'.1 ∧ final.2 = final'.2)
              (fun final final' => SameMedium final.1 final'.1 ∧ final.2 = final'.2)
              (coder.deliver consumer (⟨store, listener⟩, kept)) (rebuilt.deliver consumer (⟨store, other⟩, kept))) ∧
          ∀ limit, Agree SameMedium SameMedium (coder.collect limit (⟨store, listener⟩ : Session BitStore ω))
            (rebuilt.collect limit (⟨store, other⟩ : Session BitStore υ)) := by
  refine ⟨fun t => t.ofLengths_lengths, fun coder => ⟨coder, Codebook.toCoder_ofCoder coder, rfl, ?_⟩⟩
  intro ω υ _ _ listener other
  refine ⟨fun items => ?_, fun store => ⟨fun consumer kept => ?_, fun limit => ?_⟩⟩
  · exact ⟨_, _, _, coder.encodeList_eq_ok items listener, coder.encodeList_eq_ok items other⟩
  · exact coder.agree_deliver store listener other consumer kept
  · exact coder.alike_collect limit _ _ rfl

end HuffmanStrings
