import Mathlib
import HuffmanStrings.Tool.Run

/-!
The work of the tools on files that are a state. A step of the work either hands its value and the state on to the next
step or ends the work with a fault, and the state stays as the step left it. The files may be any that answer to reading
and writing; in a directory in memory reading changes nothing, and writing replaces one file.
-/

namespace HuffmanStrings

namespace Tool

variable {σ α β : Type}

/-- How work ends that begins in a state, and in which state it leaves the files. -/
def outcome (work : ExceptT ToolFault (StateM σ) α) (s : σ) : Except ToolFault α × σ :=
  (work.run.run s).run

section Steps

variable {work : ExceptT ToolFault (StateM σ) α} {next : α → ExceptT ToolFault (StateM σ) β} {value : α} {result : β}
  {fault : ToolFault} {s s' s'' : σ}

theorem outcome_bind (work : ExceptT ToolFault (StateM σ) α) (next : α → ExceptT ToolFault (StateM σ) β) (s : σ) :
    outcome (work >>= next) s = match outcome work s with
      | (.ok value, s') => outcome (next value) s'
      | (.error fault, s') => (.error fault, s') := by
  simp only [outcome, ExceptT.run_bind, StateT.run_bind, Id.run_bind]
  rcases Id.run (StateT.run (ExceptT.run work) s) with ⟨_ | _, s'⟩
  · rfl
  · rfl

theorem outcome_bind_of_ok (done : outcome work s = (.ok value, s')) :
    outcome (work >>= next) s = outcome (next value) s' := by
  rw [outcome_bind, done]

theorem outcome_bind_eq_error :
    outcome (work >>= next) s = (.error fault, s'') ↔ outcome work s = (.error fault, s'') ∨
      ∃ value s', outcome work s = (.ok value, s') ∧ outcome (next value) s' = (.error fault, s'') := by
  rw [outcome_bind]
  rcases outcome work s with ⟨_ | _, s'⟩
  · simp
  · simp

theorem outcome_bind_eq_ok :
    outcome (work >>= next) s = (.ok result, s'') ↔
      ∃ value s', outcome work s = (.ok value, s') ∧ outcome (next value) s' = (.ok result, s'') := by
  rw [outcome_bind]
  rcases outcome work s with ⟨_ | _, s'⟩
  · simp
  · simp

theorem outcome_step_eq_ok {context : String} {result : Except Failure α} :
    outcome (step context result) s = (.ok value, s') ↔ result = .ok value ∧ s = s' := by
  cases result with
  | ok other =>
    have done : outcome (step context (.ok other)) s = (.ok other, s) := rfl
    simp [done]
  | error failure =>
    have failed : outcome (step context (.error failure) : ExceptT ToolFault (StateM σ) α) s =
        (.error (.step context failure), s) := rfl
    simp [failed]

theorem outcome_step_bind {context : String} {result : Except Failure α} (done : result = .ok value) :
    outcome (step context result >>= next) s = outcome (next value) s :=
  outcome_bind_of_ok (outcome_step_eq_ok.2 ⟨done, rfl⟩)

theorem outcome_step_eq_error {context : String} {result : Except Failure α} :
    outcome (step context result) s = (.error fault, s') ↔
      ∃ failure, result = .error failure ∧ fault = .step context failure ∧ s = s' := by
  cases result with
  | ok other =>
    have done : outcome (step context (.ok other)) s = (.ok other, s) := rfl
    simp [done]
  | error failure =>
    have failed : outcome (step context (.error failure) : ExceptT ToolFault (StateM σ) α) s =
        (.error (.step context failure), s) := rfl
    simp [failed, eq_comm]

theorem mapError_eq_ok {answer : Except IoFault α × σ} {blame : IoFault → ToolFault} :
    (answer.1.mapError blame, answer.2) = (.ok value, s') ↔ answer = (.ok value, s') := by
  rcases answer with ⟨_ | _, s''⟩
  · simp [Except.mapError]
  · simp [Except.mapError]

/-- Work that asks the files for something and passes the answer on, a fault with the blame for it, ends as the files
answer. -/
theorem outcome_bind_answer {ask : ExceptT ToolFault (StateM σ) (Except IoFault α)} {answer : Except IoFault α × σ}
    {pass : Except IoFault α → ExceptT ToolFault (StateM σ) α} {blame : IoFault → ToolFault}
    (asked : outcome ask s = (.ok answer.1, answer.2)) (passes : ∀ value, pass (.ok value) = pure value)
    (blames : ∀ fault, pass (.error fault) = throw (blame fault)) :
    outcome (ask >>= pass) s = (answer.1.mapError blame, answer.2) := by
  rw [outcome_bind_of_ok asked]
  rcases answer with ⟨fault | value, s'⟩
  · rw [blames]
    rfl
  · rw [passes]
    rfl

end Steps

section Files

variable [FileSystem (StateM σ)] {path : String} {content : List UInt8} {s s' : σ}

def readIn (path : String) (s : σ) : Except IoFault (List UInt8) × σ :=
  ((FileSystem.read path : StateM σ (Except IoFault (List UInt8))).run s).run

def writeIn (path : String) (content : List UInt8) (s : σ) : Except IoFault Unit × σ :=
  ((FileSystem.write path content : StateM σ (Except IoFault Unit)).run s).run

theorem outcome_readBytes (operation path : String) (s : σ) : outcome (readBytes operation path) s =
    ((readIn path s).1.mapError (.file operation path), (readIn path s).2) :=
  outcome_bind_answer rfl (fun _ => rfl) fun _ => rfl

theorem outcome_writeBytes (operation path : String) (content : List UInt8) (s : σ) :
    outcome (writeBytes operation path content) s =
      ((writeIn path content s).1.mapError (.file operation path), (writeIn path content s).2) :=
  outcome_bind_answer rfl (fun _ => rfl) fun _ => rfl

theorem outcome_loadBytes (context path : String) (s : σ) : outcome (loadBytes context path) s =
    ((readIn path s).1.mapError fun fault => .step context (.io fault), (readIn path s).2) :=
  outcome_bind_answer rfl (fun _ => rfl) fun _ => rfl

theorem outcome_readBytes_eq_ok {operation : String} :
    outcome (readBytes operation path) s = (.ok content, s') ↔ readIn path s = (.ok content, s') := by
  rw [outcome_readBytes, mapError_eq_ok]

theorem outcome_writeBytes_eq_ok {operation : String} :
    outcome (writeBytes operation path content) s = (.ok (), s') ↔ writeIn path content s = (.ok (), s') := by
  rw [outcome_writeBytes, mapError_eq_ok]

theorem outcome_loadCoder_eq_ok {coder : ListCoder} :
    outcome (loadCoder path) s = (.ok coder, s') ↔ ∃ bytes book, readIn path s = (.ok bytes, s') ∧
      Codebook.ofBytes bytes = .ok book ∧ book.toCoder = .ok coder := by
  constructor
  · intro loaded
    obtain ⟨book, s₁, found, last⟩ := outcome_bind_eq_ok.1 loaded
    obtain ⟨bytes, s₂, read, first⟩ := outcome_bind_eq_ok.1 found
    rw [outcome_loadBytes, mapError_eq_ok] at read
    obtain ⟨loads, rfl⟩ := outcome_step_eq_ok.1 first
    obtain ⟨rebuilds, rfl⟩ := outcome_step_eq_ok.1 last
    exact ⟨bytes, book, read, loads, rebuilds⟩
  · rintro ⟨bytes, book, read, loads, rebuilds⟩
    have found : outcome (loadCodebook path) s = (.ok book, s') := by
      refine outcome_bind_eq_ok.2 ⟨bytes, s', ?_, outcome_step_eq_ok.2 ⟨loads, rfl⟩⟩
      rw [outcome_loadBytes, mapError_eq_ok]
      exact read
    exact outcome_bind_eq_ok.2 ⟨book, s', found, outcome_step_eq_ok.2 ⟨rebuilds, rfl⟩⟩

theorem outcome_readLines {text : String} (found : readIn path s = (.ok content, s'))
    (spells : Utf8.decode? content = some text) : outcome (readLines path) s = (.ok (Text.lines text), s') := by
  have spelt : outcome (readText "reading" path) s = (.ok text, s') := by
    rw [readText, outcome_bind_of_ok (outcome_readBytes_eq_ok.2 found), textOf, spells]
    rfl
  rw [readLines, map_eq_pure_bind, outcome_bind_of_ok spelt]
  rfl

end Files

end Tool

namespace Directory

variable {d d' : Directory} {path other : String} {content : List UInt8}

theorem lookup_cons_eq (name : String) (old : List UInt8) (rest : List (String × List UInt8)) :
    ((name, old) :: rest).lookup other = if other = name then some old else rest.lookup other := by
  by_cases found : other = name
  · simp [found]
  · have differs : (other == name) = false := beq_false_of_ne found
    simp [List.lookup_cons, found, differs]

theorem lookup_put (files : List (String × List UInt8)) :
    (put path content files).lookup other = if other = path then some content else files.lookup other := by
  induction files with
  | nil => exact lookup_cons_eq path content []
  | cons file rest ih =>
    obtain ⟨name, old⟩ := file
    rw [put]
    split
    case isTrue same =>
      rw [lookup_cons_eq, lookup_cons_eq, same]
      split <;> rfl
    case isFalse different =>
      rw [lookup_cons_eq, lookup_cons_eq, ih]
      split
      case isTrue found =>
        rw [found, if_neg different]
      case isFalse => rfl

def Updated (d : Directory) (path : String) (content : List UInt8) (d' : Directory) : Prop :=
  ∀ other, d'.find? other = if other = path then some content else d.find? other

theorem Updated.find?_self (updated : d.Updated path content d') : d'.find? path = some content := by
  rw [updated, if_pos rfl]

theorem Updated.find?_of_ne (updated : d.Updated path content d') (different : other ≠ path) :
    d'.find? other = d.find? other := by
  rw [updated, if_neg different]

theorem readIn_eq (found : d.find? path = some content) : Tool.readIn path d = (.ok content, d) := by
  have answered : Tool.readIn path d = (d.read path, d) := rfl
  rw [answered, read, found]

theorem exists_writeIn (inside : '/' ∉ path.toList) (content : List UInt8) (d : Directory) :
    ∃ d', Tool.writeIn path content d = (.ok (), d') ∧ d.Updated path content d' := by
  have answered : Tool.writeIn path content d = d.write path content := rfl
  rw [answered, write, if_neg inside]
  exact ⟨_, rfl, fun other => lookup_put d.files⟩

end Directory

end HuffmanStrings
