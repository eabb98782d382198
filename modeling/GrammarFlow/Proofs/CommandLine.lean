import GrammarFlow.CommandLine
import GrammarFlow.Proofs.Derivation.Ambiguity
import GrammarFlow.Proofs.Failure
import GrammarFlow.Proofs.Tree.Concrete

namespace GrammarFlow

theorem Document.exists_build {document : Document} {g : Grammar} (h : document.grammar = .ok g) :
    ∃ d : Declaration, d.build = .ok g := by
  rw [grammar] at h
  cases hd : document.declaration with
  | error e =>
    rw [hd] at h
    cases h
  | ok d =>
    rw [hd] at h
    exact ⟨d, h⟩

theorem Grammar.exists_build_of_ofFile {content : Except FileFault String} {g : Grammar}
    (h : Grammar.ofFile content = .ok g) : ∃ d : Declaration, d.build = .ok g := by
  unfold ofFile at h
  split at h
  · cases h
  · unfold ofJson at h
    split at h
    · cases h
    · exact Document.exists_build h

namespace Parsing.Accepts

variable {p : Parsing} {tokens : List Token}

theorem exists_tree (h : p.Accepts tokens) :
    ∃ tree, p.tree = .ok tree ∧ tree.Parses p.grammar tokens := by
  obtain ⟨t, ht, hwalk, -⟩ := h.exists_walk
  refine ⟨t.concrete p.grammar tokens 0, ?_, DerivationTree.parses_concrete ht⟩
  rw [tree, h.assemble_eq ht hwalk, ← DerivationTree.fold_factory]
  rfl

end Parsing.Accepts

namespace CommandLine

/-- A console that records what is written, with a clock that may depend on all that came before. -/
def recorderBy (files : String → Except FileFault String) (clock : Transcript → String) :
    Console (StateM Transcript) :=
  { recorder files "" with timed := fun f t => ((f (), clock t), t) }

def printed (lines : List String) : String := String.join (lines.map (· ++ "\n"))

theorem printed_append (lines lines' : List String) :
    printed (lines ++ lines') = printed lines ++ printed lines' := by
  rw [printed, List.map_append, String.join_append]
  rfl

def Transcript.wrote (t : Transcript) (lines : List String) : Transcript :=
  { t with out := t.out ++ printed lines }

@[simp] theorem Transcript.wrote_nil (t : Transcript) : t.wrote [] = t := by
  simp [wrote, printed]

@[simp] theorem Transcript.wrote_wrote (t : Transcript) (lines lines' : List String) :
    (t.wrote lines).wrote lines' = t.wrote (lines ++ lines') := by
  simp [wrote, printed_append, String.append_assoc]

section

variable {files : String → Except FileFault String} {clock : Transcript → String}

@[simp] theorem run_out (line : String) (t : Transcript) :
    ((recorderBy files clock).out line).run t = pure ((), t.wrote [line]) := by
  simp [recorderBy, recorder, Transcript.wrote, printed, String.append_assoc]

@[simp] theorem run_readText (path : String) (t : Transcript) :
    ((recorderBy files clock).readText path).run t = pure (files path, t) := rfl

@[simp] theorem run_timed {α : Type} (f : Unit → α) (t : Transcript) :
    ((recorderBy files clock).timed f).run t = pure ((f (), clock t), t) := rfl

end

/-- How many derivations the tokens have, as it is told. -/
inductive Figure (g : Grammar) (tokens : List Token) : String → Prop
  | finite (h : (g.derivations tokens).Finite) :
      Figure g tokens (toString (min (g.derivations tokens).ncard (2 ^ 128 - 1)))
  | infinite (h : (g.derivations tokens).Infinite) : Figure g tokens "infinitely many"

/-- What is to be told of the tokens of a line: their derivations and one of their trees, or where they
go wrong. -/
inductive Report (g : Grammar) (json : Bool) (tokens : List Token) : List String → Prop
  | accepted {elapsed figure : String} {tree : Tree} (sentence : g.IsSentence tokens)
      (derivations : Figure g tokens figure) (parses : tree.Parses g tokens) :
      Report g json tokens ["[✓] " ++ toString tokens.length ++ " tokens in " ++ elapsed ++ "us, " ++
        figure ++ " derivation(s)", treeText json tree]
  | rejected {f : ParseFailure} (nonsentence : ¬g.IsSentence tokens)
      (pinpoints : g.Pinpoints tokens f) : Report g json tokens ["[✗] " ++ f.message]

def heading (i : Nat) (line : String) : String :=
  "\nInput #" ++ toString i ++ ": " ++ Text.trim line

/-- The block of lines for one line of input with its number. -/
def IsBlock (g : Grammar) (json : Bool) (numbered : String × Nat) (block : List String) : Prop :=
  ∃ report, Report g json (Token.ofWords numbered.1) report ∧
    block = heading numbered.2 numbered.1 :: report

open Classical in
noncomputable def sentenceCount (g : Grammar) (lines : List String) : Nat :=
  lines.countP fun line => g.IsSentence (Token.ofWords line)

theorem sentenceCount_eq_length_iff {g : Grammar} {lines : List String} :
    sentenceCount g lines = lines.length ↔ ∀ line ∈ lines, g.IsSentence (Token.ofWords line) := by
  simp [sentenceCount, List.countP_eq_length]

theorem sentenceCount_cons_of_isSentence {g : Grammar} {line : String} {lines : List String}
    (h : g.IsSentence (Token.ofWords line)) :
    sentenceCount g (line :: lines) = sentenceCount g lines + 1 := by
  simp [sentenceCount, h]

theorem sentenceCount_cons_of_not_isSentence {g : Grammar} {line : String} {lines : List String}
    (h : ¬g.IsSentence (Token.ofWords line)) :
    sentenceCount g (line :: lines) = sentenceCount g lines := by
  simp [sentenceCount, h]

/-- The output over an input text: how many lines there are, a block for each, and how many of them
are accepted. -/
def inputOutput (lines : List String) (blocks : List (List String)) (accepted : Nat) : List String :=
  ["Found " ++ toString lines.length ++ " inputs", rule] ++ blocks.flatten ++
    ["\n" ++ rule, toString accepted ++ "/" ++ toString lines.length ++ " inputs accepted"]

noncomputable def exitStatus (g : Grammar) (text : String) : UInt32 :=
  if sentenceCount g (inputLines text) = (inputLines text).length then 0 else 1

theorem exitStatus_eq_zero_iff {g : Grammar} {text : String} : exitStatus g text = 0 ↔
    ∀ line ∈ Text.lines text, Text.isBlankText line = false → g.IsSentence (Token.ofWords line) := by
  have hlines : (∀ line ∈ inputLines text, g.IsSentence (Token.ofWords line)) ↔
      ∀ line ∈ Text.lines text, Text.isBlankText line = false → g.IsSentence (Token.ofWords line) := by
    simp only [inputLines, List.mem_filter, Bool.not_eq_true', and_imp]
  rw [← hlines, ← sentenceCount_eq_length_iff, exitStatus]
  split <;> simp_all

section

variable (files : String → Except FileFault String) (clock : Transcript → String)
  {d : Declaration} {g : Grammar} (json : Bool)

theorem figure_derivationsText {p : Parsing} {tokens : List Token} (h : p.Accepts tokens) :
    Figure p.grammar tokens (derivationsText p.derivationCount) := by
  obtain ⟨hcount, hinfinite⟩ | ⟨hcount, hfinite⟩ := h.derivationCount_eq
  · rw [hcount]
    exact .infinite hinfinite
  · rw [hcount]
    exact .finite hfinite

/-- A line is accepted with its tree, or rejected. -/
theorem attempt_cases (hg : d.build = .ok g) (line : String) :
    (∃ p tree, attempt (Graph.ofGrammar g) line = .accepted p tree ∧ p.grammar = g ∧
      p.Accepts (Token.ofWords line) ∧ tree.Parses g (Token.ofWords line)) ∨
    ∃ f, attempt (Graph.ofGrammar g) line = .rejected f ∧ ¬g.IsSentence (Token.ofWords line) ∧
      g.Pinpoints (Token.ofWords line) f := by
  have hwell : (Graph.ofGrammar g).grammar.WellFormed := Declaration.wellFormed_of_build hg
  have hsettles := Graph.settles_parse hwell (Token.ofWords line)
  rw [attempt]
  cases hparse : (Graph.ofGrammar g).parse (Token.ofWords line) with
  | error f =>
    rw [hparse] at hsettles
    exact .inr ⟨f, rfl, hsettles.not_isSentence, hsettles.pinpoints hwell⟩
  | ok p =>
    obtain ⟨hgrammar, haccepts⟩ := Graph.accepts_of_parse hg hparse
    obtain ⟨tree, htree, hparses⟩ := haccepts.exists_tree
    rw [hgrammar] at hparses
    dsimp only
    rw [htree]
    exact .inl ⟨p, tree, rfl, hgrammar, haccepts, hparses⟩

theorem run_reportLines_of_rejected {G : Graph} {line : String} {f : ParseFailure}
    (h : attempt G line = .rejected f) (lines : List String) (i : Nat) (t : Transcript) :
    (reportLines (recorderBy files clock) G json i (line :: lines)).run t =
      (reportLines (recorderBy files clock) G json (i + 1) lines).run
        (t.wrote [heading i line, "[✗] " ++ f.message]) := by
  rw [reportLines]
  simp only [StateT.run_bind, run_out, run_timed, pure_bind, h, heading, Transcript.wrote_wrote,
    List.cons_append, List.nil_append]

theorem run_reportLines_of_accepted {G : Graph} {line : String} {p : Parsing} {tree : Tree}
    (h : attempt G line = .accepted p tree) (lines : List String) (i : Nat) (t : Transcript) :
    ∃ elapsed, (reportLines (recorderBy files clock) G json i (line :: lines)).run t =
      Prod.map (·.map (· + 1)) id ((reportLines (recorderBy files clock) G json (i + 1) lines).run
        (t.wrote [heading i line, acceptance p elapsed, treeText json tree])) := by
  refine ⟨clock (t.wrote [heading i line]), ?_⟩
  rw [reportLines]
  simp only [StateT.run_bind, run_out, run_timed, pure_bind, h, heading, Transcript.wrote_wrote,
    List.cons_append, List.nil_append]
  rfl

/-- The reports follow one another, and the accepted lines are counted. -/
theorem run_reportLines (hg : d.build = .ok g) (lines : List String) (i : Nat) (t : Transcript) :
    ∃ blocks, List.Forall₂ (IsBlock g json) (lines.zipIdx i) blocks ∧
      (reportLines (recorderBy files clock) (Graph.ofGrammar g) json i lines).run t =
        pure (.ok (sentenceCount g lines), t.wrote blocks.flatten) := by
  induction lines generalizing i t with
  | nil => exact ⟨[], .nil, by rw [List.flatten_nil, Transcript.wrote_nil]; rfl⟩
  | cons line lines ih =>
    obtain ⟨p, tree, hattempt, rfl, haccepts, hparses⟩ | ⟨f, hattempt, hnot, hpinpoints⟩ :=
      attempt_cases hg line
    · obtain ⟨elapsed, hrun⟩ :=
        run_reportLines_of_accepted files clock json hattempt lines i t
      obtain ⟨blocks, hblocks, hrest⟩ :=
        ih (i + 1) (t.wrote [heading i line, acceptance p elapsed, treeText json tree])
      have hlength : p.tokens.size = (Token.ofWords line).length := by
        rw [← haccepts.tokens_eq, Array.length_toList]
      refine ⟨[heading i line, acceptance p elapsed, treeText json tree] :: blocks,
        .cons ⟨_, ?_, rfl⟩ hblocks, ?_⟩
      · rw [acceptance, hlength]
        exact .accepted haccepts.isSentence (figure_derivationsText haccepts) hparses
      · rw [hrun, hrest, sentenceCount_cons_of_isSentence haccepts.isSentence,
          Transcript.wrote_wrote, List.flatten_cons]
        rfl
    · obtain ⟨blocks, hblocks, hrest⟩ :=
        ih (i + 1) (t.wrote [heading i line, "[✗] " ++ f.message])
      refine ⟨[heading i line, "[✗] " ++ f.message] :: blocks,
        .cons ⟨_, .rejected hnot hpinpoints, rfl⟩ hblocks, ?_⟩
      rw [run_reportLines_of_rejected files clock json hattempt, hrest,
        sentenceCount_cons_of_not_isSentence hnot, Transcript.wrote_wrote, List.flatten_cons]

theorem run_reportInput (hg : d.build = .ok g) (text : String) (t : Transcript) :
    ∃ blocks, List.Forall₂ (IsBlock g json) ((inputLines text).zipIdx 1) blocks ∧
      (reportInput (recorderBy files clock) (Graph.ofGrammar g) json text).run t =
        pure (exitStatus g text,
          t.wrote (inputOutput (inputLines text) blocks (sentenceCount g (inputLines text)))) := by
  obtain ⟨blocks, hblocks, hrun⟩ := run_reportLines files clock json hg (inputLines text) 1
    (t.wrote ["Found " ++ toString (inputLines text).length ++ " inputs", rule])
  refine ⟨blocks, hblocks, ?_⟩
  rw [reportInput]
  simp only [StateT.run_bind, run_out, pure_bind, Transcript.wrote_wrote, List.cons_append,
    List.nil_append, hrun, StateT.run_pure, exitStatus, inputOutput, List.append_assoc]

theorem run_runWith {o : Options} {text : String}
    (hgrammar : Grammar.ofFile (files o.grammarPath) = .ok g)
    (hinput : files o.inputPath = .ok text) (t : Transcript) :
    (runWith (recorderBy files clock) o).run t =
      (reportInput (recorderBy files clock) (Graph.ofGrammar g) o.json text).run (t.wrote [g.text]) := by
  rw [runWith]
  simp only [StateT.run_bind, run_out, run_readText, pure_bind, hgrammar, hinput]

theorem options?_eq_some {args : List String} {grammarPath inputPath : String}
    (hshort : "-h" ∉ args) (hlong : "--help" ∉ args)
    (hpaths : args.filter (· ≠ "--json") = [grammarPath, inputPath]) :
    options? args = some ⟨grammarPath, inputPath, args.contains "--json"⟩ := by
  rw [options?, hpaths]
  simp [hshort, hlong]

end

/-- Over a grammar and an input that can be read, a run shows the grammar, gives a report for each line
that is not blank, in order, and tells how many of them are sentences. It succeeds just when all of them
are, and no line ends it early. -/
theorem run_of_readable {files : String → Except FileFault String} (clock : Transcript → String)
    {args : List String} {grammarPath inputPath text : String} {g : Grammar}
    (hshort : "-h" ∉ args) (hlong : "--help" ∉ args)
    (hpaths : args.filter (· ≠ "--json") = [grammarPath, inputPath])
    (hgrammar : Grammar.ofFile (files grammarPath) = .ok g) (hinput : files inputPath = .ok text) :
    ∃ status blocks, (run (recorderBy files clock) args).run {} =
        (status, ⟨printed (g.text ::
          inputOutput (inputLines text) blocks (sentenceCount g (inputLines text))), ""⟩) ∧
      List.Forall₂ (IsBlock g (args.contains "--json")) ((inputLines text).zipIdx 1) blocks ∧
      (status = 0 ∨ status = 1) ∧
      (status = 0 ↔ ∀ line ∈ Text.lines text, Text.isBlankText line = false →
        g.IsSentence (Token.ofWords line)) ∧
      ∀ line fault, attempt (Graph.ofGrammar g) line ≠ .broken fault := by
  obtain ⟨d, hg⟩ := Grammar.exists_build_of_ofFile hgrammar
  obtain ⟨blocks, hblocks, hrun⟩ := run_reportInput files clock (args.contains "--json") hg text
    (Transcript.wrote {} [g.text])
  refine ⟨exitStatus g text, blocks, ?_, hblocks, ?_, exitStatus_eq_zero_iff, ?_⟩
  · rw [run, options?_eq_some hshort hlong hpaths]
    dsimp only
    rw [run_runWith files clock hgrammar hinput, hrun, Transcript.wrote_wrote, Transcript.wrote,
      String.empty_append]
    rfl
  · rw [exitStatus]
    split
    · exact .inl rfl
    · exact .inr rfl
  · intro line fault hbroken
    obtain ⟨p, tree, hattempt, -⟩ | ⟨f, hattempt, -⟩ := attempt_cases hg line
    · rw [hbroken] at hattempt
      cases hattempt
    · rw [hbroken] at hattempt
      cases hattempt

/-- A grammar of sums and two lines, the second of which breaks off. -/
def sumsFiles : String → Except FileFault String
  | "sums.json" => .ok ("\x7b\"name\":\"sums\",\"terminals\":[\"n\",\"+\"]," ++
      "\"rules\":\x7b\"E\":[[\"E\",\"+\",\"E\"],[\"n\"]]\x7d\x7d")
  | "input" => .ok "n + n + n\n \nn +\n"
  | _ => .error .missing

theorem sumsFiles_run : ∃ status blocks,
    (run (recorderBy sumsFiles fun t => toString t.out.length) ["sums.json", "--json", "input"]).run {} =
      (status, ⟨printed (sumsGrammar.text :: inputOutput ["n + n + n", "n +"] blocks
        (sentenceCount sumsGrammar ["n + n + n", "n +"])), ""⟩) ∧
    List.Forall₂ (IsBlock sumsGrammar true) [("n + n + n", 1), ("n +", 2)] blocks ∧ status ≠ 0 := by
  have hgrammar : Grammar.ofFile (sumsFiles "sums.json") = .ok sumsGrammar := by decide +kernel
  have hpaths : ["sums.json", "--json", "input"].filter (· ≠ "--json") = ["sums.json", "input"] := by
    decide
  have hlines : inputLines "n + n + n\n \nn +\n" = ["n + n + n", "n +"] := by decide +kernel
  obtain ⟨status, blocks, hrun, hblocks, -, hstatus, -⟩ := run_of_readable
    (fun t => toString t.out.length) (by decide) (by decide) hpaths hgrammar rfl
  rw [hlines] at hrun hblocks
  have hnot : ¬sumsGrammar.IsSentence (Token.ofWords "n +") := by
    have hwell : (Graph.ofGrammar sumsGrammar).grammar.WellFormed :=
      Declaration.wellFormed_of_build build_sums
    have hanswers := Graph.answers_parse hwell (Token.ofWords "n +")
    have hrecognizes : (Graph.ofGrammar sumsGrammar).recognizes (Token.ofWords "n +") = false := by
      decide +kernel
    rw [Graph.recognizes] at hrecognizes
    split at hrecognizes
    · cases hrecognizes
    · next hparse =>
      rw [hparse] at hanswers
      exact hanswers
  refine ⟨status, blocks, hrun, hblocks, fun hzero => hnot (hstatus.1 hzero "n +" ?_ ?_)⟩
  · decide +kernel
  · decide +kernel

end CommandLine

end GrammarFlow
