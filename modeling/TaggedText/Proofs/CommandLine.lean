import TaggedText.Proofs.Chunks
import TaggedText.Proofs.Outline.Problems

/-!
# What `check` decides

The check of some files succeeds if all of them can be read and are well-formed: the built-in
grammar accepts the body of every directive, and the tags are balanced. What is printed has a part
for each file, which depends on that file alone. It has one line for each directive with a syntax
error, each closing directive that matches no innermost open tag and each tag left open, or one line
that the file is valid.
-/
namespace TaggedText

open Outline

/-- A directive means something if the grammar accepts its body. -/
theorem Token.accepts_iff {firstLine : UInt64} {text : String} {tokens : List Token} {token : Token}
    {directive : Directive} {reading : Except DirectiveError Descriptor}
    (h : Token.ofTextWith Grammar.standard firstLine text = .ok tokens) (hmem : token ∈ tokens)
    (hlexeme : token.lexeme = .directive directive reading) :
    (∃ descriptor, Grammar.standard directive.body = .ok descriptor) ↔
      token.lexeme.error? = none := by
  obtain ⟨site, -, hsite⟩ := exists_site h hmem hlexeme
  obtain ⟨_, heq⟩ := Layout.exists_reading hsite
  obtain ⟨rfl, rfl⟩ := Lexeme.directive.inj heq
  rw [site.body_directive, hlexeme]
  unfold Layout.Site.lexeme at hsite
  split at hsite
  next descriptor hread =>
    cases hsite
    exact iff_of_true ⟨descriptor, hread⟩ rfl
  next hread =>
    cases hsite
    rw [hread]
    exact iff_of_false nofun nofun
  next => cases hsite

/-- A text whose directives mean something and whose tags are balanced. -/
structure WellFormed (tokens : List Token) : Prop where
  accepted : ∀ token ∈ tokens, ∀ directive reading, token.lexeme = .directive directive reading →
    ∃ descriptor, Grammar.standard directive.body = .ok descriptor
  balanced : Balanced (brackets (tokens.map Token.lexeme))

theorem Outline.problems_eq_nil_iff_wellFormed {text : String} {tokens : List Token}
    (h : Token.ofText text = .ok tokens) :
    problems (tokens.map Token.lexeme) = [] ↔ WellFormed tokens := by
  have haccepted : (∀ lexeme ∈ tokens.map Token.lexeme, lexeme.error? = none) ↔
      ∀ token ∈ tokens, ∀ directive reading, token.lexeme = .directive directive reading →
        ∃ descriptor, Grammar.standard directive.body = .ok descriptor := by
    rw [List.forall_mem_map]
    refine forall₂_congr fun token hmem => ?_
    constructor
    · intro hnone directive reading hlexeme
      exact (Token.accepts_iff h hmem hlexeme).mpr hnone
    · intro haccepted
      cases hlexeme : token.lexeme with
      | text content => rfl
      | directive directive reading =>
          rw [← hlexeme]
          exact (Token.accepts_iff h hmem hlexeme).mp (haccepted directive reading hlexeme)
  rw [problems_eq_nil_iff, haccepted]
  exact ⟨fun h => ⟨h.1, h.2⟩, fun h => ⟨h.accepted, h.balanced⟩⟩

namespace CommandLine

/-- The line on one problem: where it begins, and what it is. -/
def lineOn (path : String) (problem : Problem) : String :=
  match problem.location with
  | some location =>
      path ++ ":" ++ toString location.start.line ++ ":" ++ toString location.start.character ++
        ": " ++ problem.message ++ "\n"
  | none => path ++ ": " ++ problem.message ++ "\n"

/-- The lines on a file with the given tokens. -/
def linesOn (path : String) (lexemes : List Lexeme) : List String :=
  if problems lexemes = [] then
    [path ++ ": valid (" ++ toString ((makers lexemes).length + 1) ++ " node(s))" ++ "\n"]
  else (problems lexemes).map (lineOn path)

theorem unlines_map_problemLine (path : String) (found : List Problem) :
    unlines (found.map (FileReport.problemLine path)) = String.join (found.map (lineOn path)) := by
  rw [unlines, List.map_map]
  refine congrArg String.join (List.map_congr_left fun problem _ => ?_)
  rw [Function.comp_apply, FileReport.problemLine, lineOn]
  cases problem.location with
  | some location => rfl
  | none => rfl

/-- A file is reported on by its tokens. -/
theorem ofCheck_eq {path content : String} {tokens : List Token}
    (h : Token.ofText content = .ok tokens) :
    FileReport.ofCheck path content =
      { ok := decide (problems (tokens.map Token.lexeme) = [])
        stderr := String.join (linesOn path (tokens.map Token.lexeme)) } := by
  obtain ⟨document, hdocument, houtlined⟩ := exists_outlined tokens
  have htext : Document.ofText content = .ok document := by
    rw [Document.ofText, Document.ofTextWith]
    change Token.ofTextWith Grammar.standard 0 content = .ok tokens at h
    rw [h]
    exact bind_eq_ok_iff.mpr ⟨tokens, rfl, by rw [hdocument]; rfl⟩
  rw [FileReport.ofCheck, htext, linesOn]
  dsimp only
  rw [houtlined.problems_eq, houtlined.size_eq]
  cases problems (tokens.map Token.lexeme) with
  | nil => rfl
  | cons problem rest =>
      have hlines := unlines_map_problemLine path (problem :: rest)
      rw [if_neg (List.cons_ne_nil problem rest), ← hlines]
      rfl

/-- The part of a file in what is printed: the reason why it cannot be read, or the lines on its
tokens, as many as there are problems unless there is none. -/
def IsPart (path : String) (reading : Except ReadError String) (part : String) : Prop :=
  match reading with
  | .error e => part = path ++ ": " ++ e.message ++ "\n"
  | .ok content => ∃ tokens, Token.ofText content = .ok tokens ∧
      (problems (tokens.map Token.lexeme)).length =
        errorCount (tokens.map Token.lexeme) + strayCount (tokens.map Token.lexeme) +
          (openTags (tokens.map Token.lexeme)).length ∧
      part = String.join (linesOn path (tokens.map Token.lexeme))

/-- What the check of some files comes to. -/
structure Checked (read : String → Except ReadError String) (files : List String)
    (outcome : Outcome) : Prop where
  code_eq_zero_iff : outcome.code = 0 ↔ ∀ path ∈ files, ∃ content tokens,
    read path = .ok content ∧ Token.ofText content = .ok tokens ∧ WellFormed tokens
  code_of_ne_zero : outcome.code ≠ 0 → outcome.code = 1
  stdout_eq : outcome.stdout = ""
  /-- Each file has its part, whatever the others contain. -/
  parts : ∃ parts, List.Forall₂ (fun path => IsPart path (read path)) files parts ∧
    outcome.stderr = String.join parts

theorem isPart_stderr_ofFile (path : String) (reading : Except ReadError String) :
    IsPart path reading (FileReport.ofFile .check path reading).stderr := by
  cases reading with
  | error e => rfl
  | ok content =>
      obtain ⟨tokens, htokens⟩ := Token.exists_ofTextWith_standard 0 content
      exact ⟨tokens, htokens, length_problems _, congrArg FileReport.stderr (ofCheck_eq htokens)⟩

theorem ofFile_ok_iff {path : String} {reading : Except ReadError String} :
    (FileReport.ofFile .check path reading).ok = true ↔ ∃ content tokens,
      reading = .ok content ∧ Token.ofText content = .ok tokens ∧ WellFormed tokens := by
  cases reading with
  | error e => exact iff_of_false Bool.false_ne_true nofun
  | ok content =>
      obtain ⟨tokens, htokens⟩ := Token.exists_ofTextWith_standard 0 content
      have hok : (FileReport.ofFile .check path (.ok content)).ok =
          decide (problems (tokens.map Token.lexeme) = []) :=
        congrArg FileReport.ok (ofCheck_eq htokens)
      rw [hok, decide_eq_true_iff, problems_eq_nil_iff_wellFormed htokens]
      constructor
      · exact fun h => ⟨content, tokens, rfl, htokens, h⟩
      · rintro ⟨_, _, ⟨⟩, hothers, h⟩
        cases htokens.symm.trans hothers
        exact h

theorem stdout_ofFile (path : String) (reading : Except ReadError String) :
    (FileReport.ofFile .check path reading).stdout = "" := by
  cases reading with
  | error e => rfl
  | ok content =>
      obtain ⟨tokens, htokens⟩ := Token.exists_ofTextWith_standard 0 content
      exact congrArg FileReport.stdout (ofCheck_eq htokens)

/-- The check writes nothing but its report. -/
theorem join_stdout (read : String → Except ReadError String) (files : List String) :
    String.join ((files.map fun path => FileReport.ofFile .check path (read path)).map
      FileReport.stdout) = "" := by
  induction files with
  | nil => rfl
  | cons path files ih =>
      rw [List.map_cons, List.map_cons, stdout_ofFile, String.join_cons, ih]
      rfl

/-- The check of some files decides whether all can be read and are well-formed, and reports on
each file its problems. -/
theorem checked_run (read : String → Except ReadError String) (files : List String)
    (hfiles : files ≠ []) : Checked read files (run read ("check" :: files)) := by
  have hrun : run read ("check" :: files) =
      summarize (files.map fun path => FileReport.ofFile .check path (read path)) := by
    rw [run, if_neg (by decide)]
    exact if_neg (by simpa using hfiles)
  have hall : (files.map fun path => FileReport.ofFile .check path (read path)).all
      FileReport.ok = true ↔ ∀ path ∈ files, ∃ content tokens,
        read path = .ok content ∧ Token.ofText content = .ok tokens ∧ WellFormed tokens := by
    rw [List.all_map, List.all_eq_true]
    exact forall₂_congr fun path _ => ofFile_ok_iff
  rw [hrun, summarize]
  constructor
  · rw [← hall]
    dsimp only
    split
    next hok => exact iff_of_true rfl hok
    next hbad => exact iff_of_false Nat.one_ne_zero hbad
  · dsimp only
    split
    next => exact fun hne => absurd rfl hne
    next => exact fun _ => rfl
  · exact join_stdout read files
  · refine ⟨_, ?_, congrArg String.join List.map_map⟩
    exact List.forall₂_map_right_iff.mpr
      (List.forall₂_same.mpr fun path _ => isPart_stderr_ofFile path (read path))

/-- The tag `b` is closed while `c` is open, so its closing matches nothing, and both are left open.
The other file is valid all the same. -/
theorem checked_run_crossed :
    let read := fun path : String =>
      if path = "bad.md" then
        .ok "\x7b% b %\x7d\x7b% c %\x7d\x7b% /b %\x7d\x7b% ! %\x7d"
      else .ok "\x7b% a %\x7d é \x7b% d / %\x7d \x7b% /a %\x7d"
    ["good.md", "bad.md"] ≠ [] ∧
      Checked read ["good.md", "bad.md"] (run read ["check", "good.md", "bad.md"]) ∧
      (run read ["check", "good.md", "bad.md"]).stderr =
        "good.md: valid (5 node(s))\n" ++ "bad.md:1:0: Node 'b' is missing closing\n" ++
          "bad.md:1:7: Node 'c' is missing closing\n" ++
          "bad.md:1:14: Unexpected closing tag 'b'\n" ++
          "bad.md:1:25: unexpected character: !\n" := by
  intro read
  have hfiles : ["good.md", "bad.md"] ≠ [] := by decide
  exact ⟨hfiles, checked_run read ["good.md", "bad.md"] hfiles, by decide +kernel⟩

end CommandLine

end TaggedText
