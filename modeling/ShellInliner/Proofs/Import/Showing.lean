import Mathlib.Algebra.Group.Nat.Defs
import ShellInliner.Build
import ShellInliner.Proofs.Json.Reading
import ShellInliner.Proofs.Parse.Numbers
import ShellInliner.Proofs.Run

/-! # The tree that is shown

    The tree of a script is shown as a JSON document of ASCII characters, from which
    the tree is read again, as it is with its places in the source. -/

namespace ShellInliner

open Json (IsShort IsAscii IsDocument digitLimit)

/-- The file of a script is told in complaints only. -/
theorem parse_file {source : List Char} {locate : Bool} {file : Option String} {n : Node}
    (parsed : parse source { locate, file } = .ok n) (other : Option String) :
    parse source { locate, file := other } = .ok n := by
  unfold parse at parsed ⊢
  cases found : Grammar.derivation? source with
  | none =>
    rw [found] at parsed
    cases parsed
  | some tree =>
    rw [found] at parsed
    exact parsed

/-- A number is short if and only if it is small enough. -/
theorem Json.isShort_natCast {k : Nat} : IsShort k ↔ k < 10 ^ digitLimit :=
  Nat.length_toDigits_le_iff (by decide) (by decide)

namespace Target

variable {t : Target} {d : Disk} {source : List Char} {bare : Node}

/-- A script that is read is shown as the tree with its places. -/
theorem exists_run_ast (text : t.text d = .ok source) {placed : Node}
    (parsed : parse source { locate := true } = .ok placed) (log : Log) :
    ∃ log', (t.ast d false).run.run log =
      (.ok (Json.write .indented (placed.dump .drop)), log') := by
  have read : parse source { locate := true, file := t.file } = .ok placed := parse_file parsed t.file
  have given (log : Log) : (Run.lift (t.text d) : Run Log _).run.run log = (.ok source, log) := by
    rw [Run.run_lift, text]
  have script (log : Log) : (Run.lift (parse source { locate := true, file := t.file }) :
      Run Log _).run.run log = (.ok placed, log) := by
    rw [Run.run_lift, read]
  -- Notes change the log, which is not asked for.
  have noted (message : String) (log : Log) :
      ∃ log', (note message).run.run log = (.ok (), log') := ⟨_, rfl⟩
  obtain ⟨log₁, parsing⟩ := noted ("Parsing: " ++ (Report.filled t.file).getD "<stdin>") log
  obtain ⟨log₂, done⟩ := noted s!"Parsed {statementCount placed} top-level statement(s)" log₁
  have whole : (t.read d true).run.run log = (.ok placed, log₂) := by
    unfold Target.read
    rw [Run.run_bind_ok (given log), Run.run_bind_ok parsing, Run.run_bind_ok (script log₁),
      Run.run_bind_ok done, Run.run_pure]
  refine ⟨log₂, ?_⟩
  unfold Target.ast
  rw [Run.run_bind_ok whole]
  rfl

/-- The tree of a script that is read is shown as a JSON document of ASCII characters.
    Reading the document and the value in it gives the tree with its places, if the source
    is not so long that its places are numbers with more digits than can be read. -/
theorem ast_rereads (text : t.text d = .ok source) (accepted : parse source {} = .ok bare) (log : Log) :
    ∃ written log', (t.ast d false).run.run log = (.ok written, log') ∧
      IsAscii written.toList ∧ IsDocument written.toList ∧
      (source.length + 1 < 10 ^ digitLimit → ∃ v placed,
        Json.readDocument written.toList = .ok v ∧ Node.load v = .ok placed ∧
        parse source { locate := true } = .ok placed) := by
  have same := Parse.parse_unplaced source { locate := true }
  cases parsed : parse source { locate := true } with
  | error e =>
    rw [parsed] at same
    cases accepted.symm.trans same
  | ok placed =>
    obtain ⟨log', run⟩ := exists_run_ast text parsed log
    obtain ⟨-, typed, -⟩ := Parse.sound_parse parsed
    -- What is written is a document however large its numbers are.
    have plain : (placed.dump .drop).Plain fun _ => True :=
      Node.plain_dump (Parse.numbers_parse parsed (fun _ _ => trivial) fun _ _ => trivial) .drop
    refine ⟨_, log', run, Json.isAscii_write .indented _, Json.isDocument_write .indented plain,
      fun short => ⟨placed.dump .drop, placed, ?_, Node.load_written .drop typed, rfl⟩⟩
    have numbers : Node.Throughout (Node.Numbers IsShort) placed :=
      Parse.numbers_parse parsed (fun k le => Json.isShort_natCast.mpr (by omega))
        fun k few => few
    exact Json.readDocument_write .indented (Node.plain_dump numbers .drop)

/-- A redirection of a high file descriptor to a file with a tab, a quote, a backslash and a
    character above U+FFFF in its name. -/
theorem ast_rereads_redirection :
    let source := "echo \"$x\" 12>'\t\"\\🐚'".toList
    let target : Target := ⟨none, some source, {}⟩
    ∃ written log v placed,
      (target.ast (Disk.blank "/w".toList "/home".toList) false).run.run [] = (.ok written, log) ∧
      IsDocument written.toList ∧ Json.readDocument written.toList = .ok v ∧
      Node.load v = .ok placed ∧ parse source { locate := true } = .ok placed := by
  intro source target
  have accepted : (parse source {}).toOption.any (fun _ => true) = true := by decide +kernel
  obtain ⟨bare, parsed, -⟩ := Run.exists_of_toOption_any accepted
  have text : target.text (Disk.blank "/w".toList "/home".toList) = .ok source := rfl
  obtain ⟨written, log, run, -, document, rereads⟩ := ast_rereads text parsed []
  obtain ⟨v, placed, read, load, same⟩ := rereads (by decide +kernel)
  exact ⟨written, log, v, placed, run, document, read, load, same⟩

end Target

end ShellInliner
