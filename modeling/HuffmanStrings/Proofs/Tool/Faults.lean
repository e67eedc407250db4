import Mathlib
import HuffmanStrings.Proofs.Codebook.Acceptance
import HuffmanStrings.Proofs.Coder.Safety
import HuffmanStrings.Proofs.Tool.Packing

/-!
Faults that the tools report as their own. Whatever the files hold, no tool ends with a failure that can only be a mistake
of its own, except for unpacking: where the file to be unpacked says that it holds more bits than it does, the failure is
reported as one of the tool and not of the file.
-/

namespace HuffmanStrings

/-- The failures that are reported as mistakes of the tools. -/
inductive Failure.Internal : Failure → Prop
  | unflushedBits (pending : Nat) : Internal (.unflushedBits pending)
  | invalidBitCount (count : Nat) : Internal (.invalidBitCount count)
  | seekPastEnd (position size : Nat) : Internal (.seekPastEnd position size)
  | unseekable : Internal .unseekable

/-- These are the failures of which the user is told that they are a bug. What is said of any other ends differently or
has a different length. -/
theorem Failure.internal_iff_hint {failure : Failure} :
    failure.Internal ↔ failure.hint = s!"{failure.message}. This is a bug." := by
  constructor
  · intro internal
    cases internal <;> rfl
  · intro told
    have length : failure.hint.length = failure.message.length + 16 := by
      rw [told]
      exact String.length_append ..
    cases failure with
    | unflushedBits pending => exact .unflushedBits pending
    | invalidBitCount count => exact .invalidBitCount count
    | seekPastEnd position size => exact .seekPastEnd position size
    | unseekable => exact .unseekable
    | emptyAlphabet | malformedBinary | malformedJson => exact absurd told (by decide)
    | invalidTable flaw =>
      have hinted : (invalidTable flaw).hint.length = flaw.message.length + 26 := String.length_append ..
      have longer : (invalidTable flaw).message.length = 20 + flaw.message.length := String.length_append ..
      omega
    | invalidBounds flaw =>
      have hinted : (invalidBounds flaw).hint.length = flaw.message.length + 24 := String.length_append ..
      have longer : (invalidBounds flaw).message.length = 14 + flaw.message.length := String.length_append ..
      omega
    | io fault =>
      have hinted : (io fault).hint.length = fault.message.length := rfl
      have longer : (io fault).message.length = 11 + fault.message.length := String.length_append ..
      omega
    | _ =>
      have ending := (String.append_right_inj _).1 told
      exact absurd ending (by decide)

inductive ToolFault.Internal : ToolFault → Prop
  | step {failure : Failure} (context : String) : failure.Internal → Internal (.step context failure)

theorem ToolFault.internal_iff_hint {fault : ToolFault} : fault.Internal ↔
    ∃ context failure, fault = .step context failure ∧ failure.hint = s!"{failure.message}. This is a bug." := by
  constructor
  · intro internal
    cases internal with
    | step context cause => exact ⟨context, _, rfl, Failure.internal_iff_hint.1 cause⟩
  · rintro ⟨context, failure, rfl, told⟩
    exact .step context (Failure.internal_iff_hint.2 told)

section Causes

variable {α β : Type}

def External (result : Except Failure α) : Prop :=
  ∀ failure, result = .error failure → ¬failure.Internal

theorem External.ok (value : α) : External (.ok value : Except Failure α) := by
  intro failure failed
  cases failed

theorem External.error {failure : Failure} (other : ¬failure.Internal) :
    External (.error failure : Except Failure α) := by
  intro failure' failed
  cases failed
  exact other

theorem External.bind {first : Except Failure α} {next : α → Except Failure β} (before : External first)
    (after : ∀ value, External (next value)) : External (first >>= next) := by
  cases first with
  | ok value => exact after value
  | error failure => exact .error (before failure rfl)

theorem Judged.external {result : Except Failure α} {condition : Prop} (judged : Judged result condition) :
    External result := by
  intro failure failed internal
  have refused := judged.refused fun holds => by
    obtain ⟨value, accepted⟩ := judged.exists_ok_iff.2 holds
    rw [failed] at accepted
    cases accepted
  rw [failed] at refused
  rcases refused with same | ⟨flaw, same⟩
  · cases same
    cases internal
  · cases same
    cases internal

theorem external_mapError (result : Except IoFault α) : External (result.mapError .io) := by
  cases result with
  | ok value => exact .ok value
  | error fault => exact .error nofun

theorem external_check (settings : Settings) : External settings.check := by
  unfold Settings.check
  split
  · exact .error nofun
  · split
    · exact .error nofun
    · exact .ok ()

theorem external_ofBytes (bytes : List UInt8) : External (Codebook.ofBytes bytes) := by
  unfold Codebook.ofBytes Binary.decode
  split
  · exact .ok _
  · exact .error nofun

theorem external_ofJson (text : String) : External (Settings.ofJson text) := by
  have decoded : External (Json.decode Json.settings? text) := by
    unfold Json.decode
    split
    · exact .ok _
    · exact .error nofun
  exact decoded.bind fun settings => (external_check settings).bind fun _ => .ok settings

theorem external_rank [DecidableEq α] (frequencies : List (α × UInt64)) (escape : Option α) (minimum : Nat) :
    External (Ranking.build frequencies escape minimum) := by
  unfold Ranking.build
  dsimp only
  split
  · exact .error nofun
  · split
    · exact .error nofun
    · exact .ok _

theorem external_build [DecidableEq α] (ranking : Ranking α) (maximum : Nat) :
    External (CodeTable.build ranking maximum) := by
  unfold CodeTable.build
  split
  · exact .error nofun
  · split
    · exact .error nofun
    · split
      · exact .error nofun
      · exact (CodeTable.judged_ofLengths _ _).external

theorem CharCoder.external_ofFrequencies (frequencies : List (Char × UInt64)) (texts : UInt64) (settings : Settings) :
    External (ofFrequencies frequencies texts settings) := by
  apply (external_check settings).bind
  intro _
  split
  · exact .error nofun
  · exact (external_rank _ _ _).bind fun ranking => (external_build ranking _).bind fun table =>
      (judged_ofTable table).external

theorem TextCoder.external_ofFrequencies (frequencies : List (String × UInt64)) (chars : CharCoder)
    (settings : Settings) : External (ofFrequencies frequencies chars settings) := by
  apply (external_check settings).bind
  intro _
  split
  · exact .error nofun
  · exact (external_rank _ _ _).bind fun ranking => (external_build ranking _).bind fun table =>
      (judged_ofTable table chars).external

theorem Failure.Rejects.not_internal {failure : Failure} (rejects : failure.Rejects) : ¬failure.Internal := by
  cases rejects <;> nofun

theorem external_pack (coder : ListCoder) (lines : List String) : External (Tool.pack coder lines) := by
  obtain ⟨store, statistics, packs, -⟩ := Tool.exists_pack coder lines
  rw [packs]
  exact .ok _

theorem external_unpack (coder : ListCoder) (store : BitStore) (count : Option Nat) :
    External (Tool.unpack coder store count) := by
  have texts : (coder.texts.texts : Decoder (Session BitStore Unit) String).Safe := coder.texts.safe_texts
  have safe := Decoder.safe_collect texts count ⟨store.rewound, ()⟩
  by_cases none : count = some 0
  · rw [none]
    exact .ok []
  · have rewinds : coder.collect count ⟨store, ()⟩ = coder.texts.texts.collect count ⟨store.rewound, ()⟩ := by
      rw [ListCoder.collect, if_neg none]
      rfl
    rw [Tool.unpack, rewinds]
    generalize coder.texts.texts.collect count ⟨store.rewound, ()⟩ = result at safe
    cases safe with
    | ok => exact .ok _
    | rejected cause => exact .error cause.not_internal

end Causes

namespace Tool

variable {σ α β : Type}

def Blameless (work : ExceptT ToolFault (StateM σ) α) : Prop :=
  ∀ s fault s', outcome work s = (.error fault, s') → ¬fault.Internal

namespace Blameless

variable {work : ExceptT ToolFault (StateM σ) α}

theorem pure (value : α) : Blameless (pure value : ExceptT ToolFault (StateM σ) α) := by
  intro s fault s' failed
  cases failed

theorem throw {fault : ToolFault} (other : ¬fault.Internal) :
    Blameless (throw fault : ExceptT ToolFault (StateM σ) α) := by
  intro s fault' s' failed
  cases failed
  exact other

theorem bind {next : α → ExceptT ToolFault (StateM σ) β} (first : Blameless work)
    (second : ∀ value, Blameless (next value)) : Blameless (work >>= next) := by
  intro s fault s'' failed
  rcases outcome_bind_eq_error.1 failed with early | ⟨value, s', -, late⟩
  · exact first s fault s'' early
  · exact second value s' fault s'' late

theorem map (blameless : Blameless work) (f : α → β) : Blameless (f <$> work) := by
  rw [map_eq_pure_bind]
  exact blameless.bind fun value => .pure (f value)

theorem step (context : String) {result : Except Failure α} (external : External result) :
    Blameless (step context result : ExceptT ToolFault (StateM σ) α) := by
  cases result with
  | ok value => exact .pure value
  | error failure =>
    have other : ¬(ToolFault.step context failure).Internal := by
      intro internal
      cases internal with
      | step _ internal => exact external failure rfl internal
    exact .throw other

end Blameless

variable [FileSystem (StateM σ)]

theorem blameless_read (path : String) : Blameless
    (FileSystem.read path : ExceptT ToolFault (StateM σ) (Except IoFault (List UInt8))) := by
  intro s fault s' failed
  cases failed

theorem blameless_write (path : String) (content : List UInt8) : Blameless
    (FileSystem.write path content : ExceptT ToolFault (StateM σ) (Except IoFault Unit)) := by
  intro s fault s' failed
  cases failed

theorem blameless_readBytes (operation path : String) :
    Blameless (readBytes operation path : ExceptT ToolFault (StateM σ) (List UInt8)) := by
  apply (blameless_read path).bind
  intro answer
  cases answer with
  | ok content => exact .pure content
  | error fault => exact .throw nofun

theorem blameless_readText (operation path : String) :
    Blameless (readText operation path : ExceptT ToolFault (StateM σ) String) := by
  apply (blameless_readBytes operation path).bind
  intro content
  cases textOf content with
  | ok text => exact .pure text
  | error fault => exact .throw nofun

theorem blameless_readLines (path : String) :
    Blameless (readLines path : ExceptT ToolFault (StateM σ) (List String)) :=
  (blameless_readText "reading" path).map Text.lines

theorem blameless_writeBytes (operation path : String) (content : List UInt8) :
    Blameless (writeBytes operation path content : ExceptT ToolFault (StateM σ) Unit) := by
  apply (blameless_write path content).bind
  intro answer
  cases answer with
  | ok => exact .pure ()
  | error fault => exact .throw nofun

theorem blameless_loadBytes (context path : String) :
    Blameless (loadBytes context path : ExceptT ToolFault (StateM σ) (List UInt8)) :=
  (blameless_read path).bind fun answer => .step context (external_mapError answer)

theorem blameless_loadCodebook (path : String) :
    Blameless (loadCodebook path : ExceptT ToolFault (StateM σ) Codebook) :=
  (blameless_loadBytes "loading codebook" path).bind fun bytes => .step "loading codebook" (external_ofBytes bytes)

theorem blameless_loadCoder (path : String) :
    Blameless (loadCoder path : ExceptT ToolFault (StateM σ) ListCoder) :=
  (blameless_loadCodebook path).bind fun book => .step "loading codebook" book.judged_toCoder.external

theorem blameless_loadSettings (path : Option String) :
    Blameless (loadSettings path : ExceptT ToolFault (StateM σ) Settings) := by
  cases path with
  | none => exact .pure _
  | some path =>
    apply (blameless_loadBytes "loading config" path).bind
    intro content
    exact .step "loading config" ((external_mapError (textOf content)).bind external_ofJson)

theorem blameless_saveCodebook (path : String) (book : Codebook) :
    Blameless (saveCodebook path book : ExceptT ToolFault (StateM σ) Unit) :=
  (blameless_write path book.toBytes).bind fun answer => .step "writing codebook" (external_mapError answer)

theorem blameless_vocabulary (samples : List String) (path : Option String) :
    Blameless (vocabulary samples path : ExceptT ToolFault (StateM σ) (List (String × UInt64))) := by
  cases path with
  | none => exact .pure _
  | some path =>
    apply (blameless_readText "reading frequencies" path).bind
    intro text
    cases Json.decode Json.frequencies? text with
    | ok frequencies => exact .pure frequencies
    | error failure => exact .throw nofun

theorem blameless_train (samples output : String) (frequencies settings : Option String) (maximum minimum : Option Nat)
    (json : Option String) :
    Blameless (train samples output frequencies settings maximum minimum json :
      ExceptT ToolFault (StateM σ) ToolOutput) := by
  apply (blameless_loadSettings settings).bind
  intro loaded
  apply (blameless_readLines samples).bind
  intro lines
  apply (Blameless.step "training characters" (CharCoder.external_ofFrequencies _ _ _)).bind
  intro chars
  apply (blameless_vocabulary lines frequencies).bind
  intro texts
  apply (Blameless.step "training strings" (TextCoder.external_ofFrequencies texts chars _)).bind
  intro coder
  apply (blameless_saveCodebook output _).bind
  intro _
  cases json with
  | none => exact .pure _
  | some path => exact (blameless_writeBytes "writing json" path _).bind fun _ => .pure _

theorem blameless_encode (codebook input output : String) :
    Blameless (encode codebook input output : ExceptT ToolFault (StateM σ) ToolOutput) := by
  apply (blameless_loadCoder codebook).bind
  intro coder
  apply (blameless_readLines input).bind
  intro lines
  apply (Blameless.step "encoding" (external_pack coder lines)).bind
  rintro ⟨store, statistics⟩
  exact (blameless_writeBytes "writing output" output store.frame).bind fun _ => .pure _

theorem blameless_dump (codebook : String) (csv json : Option String) :
    Blameless (dump codebook csv json : ExceptT ToolFault (StateM σ) ToolOutput) := by
  apply (blameless_loadCodebook codebook).bind
  intro book
  apply (Blameless.step "rebuilding character table" (CodeTable.judged_ofLengths _ _).external).bind
  intro characters
  apply (Blameless.step "rebuilding string table" (CodeTable.judged_ofLengths _ _).external).bind
  intro texts
  have wrote (operation path text : String) :
      Blameless (writeText operation path text : ExceptT ToolFault (StateM σ) Unit) :=
    blameless_writeBytes operation path (Utf8.encode text)
  cases csv with
  | none =>
    cases json with
    | none => exact .pure _
    | some jsonPath => exact (wrote "creating json" jsonPath _).bind fun _ => .pure _
  | some csvPath =>
    apply (wrote "creating csv" csvPath _).bind
    intro _
    cases json with
    | none => exact .pure _
    | some jsonPath => exact (wrote "creating json" jsonPath _).bind fun _ => .pure _

/-- What follows once the store of a packed file has been made. -/
theorem blameless_unpacked (coder : ListCoder) (store : BitStore) (count : Option Nat) (output : String) :
    Blameless (do
      let texts ← step "decoding" (unpack coder store count)
      if let some requested := count then
        if texts.length < requested then
          throw (.tooFew texts.length requested)
      writeText "writing output" output (Text.unlines texts)
      return .text "" : ExceptT ToolFault (StateM σ) ToolOutput) := by
  apply (Blameless.step "decoding" (external_unpack coder store count)).bind
  intro texts
  have wrote : Blameless (do
      writeText "writing output" output (Text.unlines texts)
      return .text "" : ExceptT ToolFault (StateM σ) ToolOutput) :=
    (blameless_writeBytes "writing output" output _).bind fun _ => .pure _
  cases count with
  | none => exact wrote
  | some requested =>
    dsimp only
    split
    · have other : ¬(ToolFault.tooFew texts.length requested).Internal := nofun
      exact (Blameless.throw other).bind fun _ => wrote
    · exact wrote

/-- Bytes that are too few to say how many bits there are count as cut off; bytes that are too few for the bits they
announce count as a mistake of the tools, and no others do. -/
theorem internal_ofFrame?_iff {content : List UInt8} {failure : Failure} :
    BitStore.ofFrame? content = .error failure ∧ failure.Internal ↔
      8 ≤ content.length ∧ 8 * (content.length - 8) < ofBigEndian (content.take 8) ∧
        failure = .seekPastEnd (ofBigEndian (content.take 8)) (8 * (content.length - 8)) := by
  unfold BitStore.ofFrame? BitStore.ofBytes?
  rw [List.length_drop]
  split
  case isTrue short =>
    constructor
    · rintro ⟨failed, internal⟩
      cases failed
      cases internal
    · rintro ⟨long, -⟩
      exact absurd short (Nat.not_lt.2 long)
  case isFalse long =>
    split
    case isTrue beyond =>
      constructor
      · rintro ⟨failed, -⟩
        cases failed
        exact ⟨Nat.le_of_not_lt long, beyond, rfl⟩
      · rintro ⟨-, -, rfl⟩
        exact ⟨rfl, .seekPastEnd _ _⟩
    case isFalse within =>
      constructor
      · rintro ⟨failed, -⟩
        cases failed
      · rintro ⟨-, beyond, -⟩
        exact absurd beyond within

/-- A fault of a tool's own is one of which the user is told that it is a bug. On any files, a tool ends with one just if
it unpacks, the codebook can be loaded, and the file to be unpacked says in its first eight bytes that it holds more bits
than there are behind them. -/
theorem internal_fault_iff (command : Command) (s s' : σ) (fault : ToolFault) :
    (fault.Internal ↔ ∃ context failure, fault = .step context failure ∧
      failure.hint = s!"{failure.message}. This is a bug.") ∧
    (outcome (run command) s = (.error fault, s') ∧ fault.Internal ↔
      ∃ codebook input output count bytes book coder content s₁,
        command = .decode codebook input output count ∧
        readIn codebook s = (.ok bytes, s₁) ∧ Codebook.ofBytes bytes = .ok book ∧ book.toCoder = .ok coder ∧
        readIn input s₁ = (.ok content, s') ∧ 8 ≤ content.length ∧
        8 * (content.length - 8) < ofBigEndian (content.take 8) ∧
        fault = .step "reading input"
          (.seekPastEnd (ofBigEndian (content.take 8)) (8 * (content.length - 8)))) := by
  refine ⟨ToolFault.internal_iff_hint, ?_⟩
  constructor
  · rintro ⟨failed, internal⟩
    cases command with
    | train samples output frequencies settings maximum minimum json =>
      exact absurd internal (blameless_train samples output frequencies settings maximum minimum json s fault s' failed)
    | encode codebook input output => exact absurd internal (blameless_encode codebook input output s fault s' failed)
    | dump codebook csv json => exact absurd internal (blameless_dump codebook csv json s fault s' failed)
    | decode codebook input output count =>
      have failed : outcome (decode codebook input output count) s = (.error fault, s') := failed
      rcases outcome_bind_eq_error.1 failed with early | ⟨coder, s₁, loaded, failed⟩
      · exact absurd internal (blameless_loadCoder codebook s fault s' early)
      rcases outcome_bind_eq_error.1 failed with early | ⟨content, s₂, read, failed⟩
      · exact absurd internal (blameless_readBytes "reading input" input s₁ fault s' early)
      rcases outcome_bind_eq_error.1 failed with early | ⟨store, s₃, made, failed⟩
      · -- Of all steps, only making the store of the packed file can fail in this way.
        obtain ⟨failure, refused, rfl, rfl⟩ := outcome_step_eq_error.1 early
        obtain ⟨bytes, book, found, loads, rebuilds⟩ := outcome_loadCoder_eq_ok.1 loaded
        have cause : failure.Internal := by
          cases internal with
          | step _ cause => exact cause
        obtain ⟨long, beyond, rfl⟩ := internal_ofFrame?_iff.1 ⟨refused, cause⟩
        exact ⟨codebook, input, output, count, bytes, book, coder, content, s₁, rfl, found, loads, rebuilds,
          outcome_readBytes_eq_ok.1 read, long, beyond, rfl⟩
      · exact absurd internal (blameless_unpacked coder store count output s₃ fault s' failed)
  · rintro ⟨codebook, input, output, count, bytes, book, coder, content, s₁, rfl, found, loads, rebuilds, read, long,
      beyond, rfl⟩
    obtain ⟨refused, cause⟩ := internal_ofFrame?_iff.2 ⟨long, beyond, rfl⟩
    have loaded := outcome_loadCoder_eq_ok.2 ⟨bytes, book, found, loads, rebuilds⟩
    refine ⟨?_, .step "reading input" cause⟩
    rw [run, decode, outcome_bind_of_ok loaded, outcome_bind_of_ok (outcome_readBytes_eq_ok.2 read)]
    exact outcome_bind_eq_error.2 (.inl (outcome_step_eq_error.2 ⟨_, refused, rfl, rfl⟩))

/-- Eight bytes that announce 255 bits, with nothing behind them, are what is left of a longer file. -/
theorem internal_fault_truncated :
    ∃ (fault : ToolFault) (d : Directory),
      outcome (run (.decode "book" "packed" "unpacked" none))
        ⟨[("book", barest.toBytes), ("packed", [0, 0, 0, 0, 0, 0, 0, 255])]⟩ = (.error fault, d) ∧
      fault.Internal ∧
      fault.message = "reading input: seek to bit 255 past end of storage (0 bits). This is a bug." :=
  ⟨.step "reading input" (.seekPastEnd 255 0), _, rfl, .step _ (.seekPastEnd 255 0), by decide⟩

end Tool

end HuffmanStrings
