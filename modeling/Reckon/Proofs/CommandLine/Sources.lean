import Reckon.CommandLine.Plan
import Reckon.Proofs.Expression.Remainder
import Reckon.Proofs.Text.Lines
import Reckon.Proofs.Token.Stream

namespace Reckon

def Text.Blank (line : String) : Prop :=
  ∀ c ∈ line.toList, isBlank c = true

theorem tokens_eq_nil_iff (text : String) : tokens text = .ok [] ↔ Text.Blank text := by
  rw [tokens_eq_ok_iff]
  constructor
  · rintro ⟨stop, t, behind, reads, final, finish⟩
    cases reads with
    | nil => exact Cursor.blank_of_finish final finish
  · intro blank
    have skipped : ((Cursor.ofText text).skip Text.isBlank).rest = [] := List.dropWhile_eq_nil_iff.mpr blank
    refine ⟨_, .finish ((Cursor.ofText text).skip Text.isBlank).pos, (Cursor.ofText text).skip Text.isBlank, .nil, ?_,
      rfl⟩
    rw [Cursor.next, Cursor.lead, skipped]

namespace CommandLine

open Text

theorem holdsExpression_eq_false_iff {line : String} : holdsExpression line = false ↔ Blank line := by
  simp [holdsExpression, Blank]

structure Suited (text : String) : Prop where
  visible : ¬ Blank text
  single : '\n' ∉ text.toList
  whole : text.toList.getLast? ≠ some '\r'

/-- The bytes hold the expressions one a line, in their order, with lines of white space anywhere. The last
line need not end. -/
inductive Supplies : List String → List UInt8 → Prop where
  | nothing : Supplies [] []
  | last (text : String) : Supplies [text] (encoded text)
  | lastBlank {line : String} (blank : Blank line) (single : '\n' ∉ line.toList) : Supplies [] (encoded line)
  | line {text : String} {texts : List String} {ending bytes : List UInt8} (ends : LineEnd ending)
      (further : Supplies texts bytes) : Supplies (text :: texts) (encoded text ++ ending ++ bytes)
  | blank {line : String} {texts : List String} {ending bytes : List UInt8} (blank : Blank line)
      (single : '\n' ∉ line.toList) (ends : LineEnd ending) (further : Supplies texts bytes) :
      Supplies texts (encoded line ++ ending ++ bytes)

section Input

variable {texts : List String} {text : String} {input : List UInt8}

theorem lines?_last (single : '\n' ∉ text.toList) :
    lines? (encoded text) = some (if (encoded text).isEmpty then [] else [text]) := by
  rw [lines?, cutLines_rest (mt lineFeed_mem single)]
  split
  · rfl
  · rw [List.mapM_cons, fromUTF8?_encoded]
    rfl

theorem Suited.encoded_ne_nil (suited : Suited text) : (encoded text).isEmpty = false := by
  rw [List.isEmpty_eq_false_iff]
  intro empty
  apply suited.visible
  intro c member
  have none := List.flatMap_eq_nil_iff.mp empty c member
  exact absurd none String.utf8EncodeChar_ne_nil

theorem Suited.holdsExpression (suited : Suited text) : holdsExpression text = true := by
  rw [← Bool.not_eq_false, holdsExpression_eq_false_iff]
  exact suited.visible

theorem Supplies.exists_lines (supplies : Supplies texts input) (suited : ∀ text ∈ texts, Suited text) :
    ∃ lines, lines? input = some lines ∧ lines.filter holdsExpression = texts := by
  induction supplies with
  | nothing => exact ⟨[], rfl, rfl⟩
  | last text =>
    have own := suited text (List.mem_singleton_self text)
    refine ⟨_, lines?_last own.single, ?_⟩
    simp [own.encoded_ne_nil, own.holdsExpression]
  | @lastBlank line blank single =>
    refine ⟨_, lines?_last single, ?_⟩
    have skipped := holdsExpression_eq_false_iff.mpr blank
    split <;> simp [skipped]
  | @line text texts ending bytes ends _ ih =>
    obtain ⟨own, others⟩ := List.forall_mem_cons.mp suited
    obtain ⟨lines, read, kept⟩ := ih others
    obtain ⟨line, cut, rfl | ⟨front, -, returned⟩⟩ := cutLines_encoded own.single ends bytes
    · refine ⟨line :: lines, ?_, ?_⟩
      · rw [lines?_of_cutLines_cons cut, read, Option.map_some]
      · rw [List.filter_cons, own.holdsExpression, kept, if_pos rfl]
    · have last : text.toList.getLast? = some '\r' := by simp [returned]
      exact absurd last own.whole
  | @blank line texts ending bytes blank single ends _ ih =>
    obtain ⟨lines, read, kept⟩ := ih suited
    obtain ⟨cutLine, cut, part⟩ := cutLines_encoded single ends bytes
    have blankCut : Blank cutLine := by
      rcases part with rfl | ⟨front, rfl, rfl⟩
      · exact blank
      · intro c member
        exact blank c (by simp_all)
    refine ⟨cutLine :: lines, ?_, ?_⟩
    · rw [lines?_of_cutLines_cons cut, read, Option.map_some]
    · rw [List.filter_cons, holdsExpression_eq_false_iff.mpr blankCut, kept, if_neg Bool.false_ne_true]

end Input

def Options.about (o : Options) (texts : List String) : Options :=
  { o with expressions := texts }

theorem single_about (o : Options) (about : List String) (text : String) :
    single (o.about about) text = single o text :=
  rfl

theorem batch_about (o : Options) (about texts : List String) : batch (o.about about) texts = batch o texts := by
  induction texts with
  | nil => rfl
  | cons text texts ih =>
    rw [batch, batch, single_about, ih]
    rfl

theorem batchOutcome_about (o : Options) (about texts : List String) :
    batchOutcome (o.about about) texts = batchOutcome o texts := by
  rw [batchOutcome, batchOutcome, batch_about]

section Running

variable {read : List String → Except Outcome Options} {o : Options} {arguments texts : List String}

theorem runBy_of_expressions (given : read arguments = .ok (o.about texts)) (unchecked : o.selfCheck = false)
    (some : texts ≠ []) (input : List UInt8) : runBy read arguments input = batchOutcome o texts := by
  have checks : (o.about texts).selfCheck = false := unchecked
  have expressions : (o.about texts).expressions = texts := rfl
  have filled : texts.isEmpty = false := List.isEmpty_eq_false_iff.mpr some
  simp [runBy, planBy, given, checks, expressions, filled, batchOutcome_about]

theorem runBy_of_input (given : read arguments = .ok (o.about [])) (unchecked : o.selfCheck = false)
    (input : List UInt8) : runBy read arguments input = inputOutcome (o.about []) input := by
  have checks : (o.about []).selfCheck = false := unchecked
  have expressions : (o.about []).expressions = [] := rfl
  simp [runBy, planBy, given, checks, expressions]

theorem madeOut_of_options {o : Options} (made : Options.ofArguments arguments = .ok o) :
    madeOut arguments = .ok o := by
  rw [madeOut, made]
  rfl

theorem inputOutcome_of_supplies {input : List UInt8} (supplies : Supplies texts input)
    (suited : ∀ text ∈ texts, Suited text) (o : Options) : inputOutcome (o.about []) input = batchOutcome o texts := by
  obtain ⟨lines, read, kept⟩ := supplies.exists_lines suited
  rw [inputOutcome, read]
  show batchOutcome (o.about []) (lines.filter holdsExpression) = batchOutcome o texts
  rw [kept, batchOutcome_about]

theorem runBy_of_supplies {flags : List String} {input : List UInt8} (given : texts ≠ [])
    (suited : ∀ text ∈ texts, Suited text) (supplies : Supplies texts input) (unchecked : o.selfCheck = false)
    (options : read flags = .ok (o.about [])) (expressions : read arguments = .ok (o.about texts))
    (other : List UInt8) : runBy read flags input = runBy read arguments other := by
  rw [runBy_of_input options unchecked, inputOutcome_of_supplies supplies suited,
    runBy_of_expressions expressions unchecked given]

end Running

theorem longRole_ne_separator (option : List Char) : longRole option ≠ .separator := by
  simp only [longRole]
  split
  · simp
  · split <;> simp

theorem eq_of_role_separator {argument : String} (separates : role argument = .separator) : argument = "--" := by
  unfold role at separates
  split at separates
  · rename_i hyphens
    exact String.toList_inj.mp hyphens
  · exact absurd separates (longRole_ne_separator _)
  · split at separates <;> cases separates
  · cases separates

section Flags

variable {o after : Options} {flags : List String}

theorem extend_append (more : List String) (unseparated : "--" ∉ flags) (read : o.extend flags = .ok after)
    (none : after.expressions = []) : o.extend (flags ++ more) = after.extend more := by
  fun_induction Options.extend o flags with
  | case1 o =>
    cases read
    rfl
  | case2 o argument arguments separates =>
    exact absurd (eq_of_role_separator separates).symm (List.ne_of_not_mem_cons unseparated)
  | case3 o argument arguments =>
    cases read
    cases none
  | case4 => cases read
  | case5 o argument arguments given kind ih =>
    rw [List.cons_append, Options.extend.eq_def]
    simp only [kind]
    cases switched : given.foldlM Options.switch o with
    | error refrain => simp [switched, bind, Except.bind] at read
    | ok next =>
      rw [switched] at read
      exact ih next (List.not_mem_of_not_mem_cons unseparated) read
  | case6 o argument arguments value kind ih =>
    rw [List.cons_append, Options.extend.eq_def]
    simp only [kind]
    cases limited : o.limit value with
    | error refrain => simp [limited, bind, Except.bind] at read
    | ok next =>
      rw [limited] at read
      exact ih next (List.not_mem_of_not_mem_cons unseparated) read
  | case7 => cases read
  | case8 o argument kind value arguments plain ih =>
    rw [List.cons_append, List.cons_append, Options.extend.eq_def]
    simp only [kind, plain, if_true]
    cases limited : o.limit value with
    | error refrain => simp [limited, bind, Except.bind] at read
    | ok next =>
      rw [limited] at read
      exact ih next (List.not_mem_of_not_mem_cons (List.not_mem_of_not_mem_cons unseparated)) read
  | case9 => cases read

theorem extend_separator (o : Options) (texts : List String) : o.extend ("--" :: texts) = .ok (o.about texts) :=
  rfl

theorem ofArguments_separated (unseparated : "--" ∉ flags) (read : Options.ofArguments flags = .ok after)
    (none : after.expressions = []) (texts : List String) :
    Options.ofArguments (flags ++ "--" :: texts) = .ok (after.about texts) := by
  rw [Options.ofArguments, extend_append _ unseparated read none, extend_separator]

end Flags

/-- Expressions that the standard input holds are worked through like the same expressions among the arguments,
however the arguments are read. A line is left out exactly if it has no tokens. An input with a line that is no
UTF-8 is refused before anything is worked through. Arguments in front of a separator are read as they are without
it, so expressions can be handed on behind one. -/
theorem input_as_arguments :
    (∀ read texts input, texts ≠ [] → (∀ text ∈ texts, Suited text) → Supplies texts input →
      ∀ o : Options, o.selfCheck = false → ∀ flags arguments, read flags = .ok (o.about []) →
        read arguments = .ok (o.about texts) → ∀ other, runBy read flags input = runBy read arguments other) ∧
    (∀ line, holdsExpression line = false ↔ tokens line = .ok []) ∧
    (∀ read input line, LineOf line input → ¬ line.toByteArray.IsValidUTF8 →
      ∀ o : Options, o.selfCheck = false → ∀ flags, read flags = .ok (o.about []) →
        (runBy read flags input).code = 1 ∧ (runBy read flags input).stdout = "") ∧
    ∀ texts input, texts ≠ [] → (∀ text ∈ texts, Suited text) → Supplies texts input →
      ∀ o : Options, o.selfCheck = false → ∀ flags, Options.ofArguments flags = .ok (o.about []) → "--" ∉ flags →
        ∀ other, run flags input = run (flags ++ "--" :: texts) other := by
  refine ⟨?_, ?_, ?_, ?_⟩
  · intro read texts input given suited supplies o unchecked flags arguments options expressions
    exact runBy_of_supplies given suited supplies unchecked options expressions
  · intro line
    rw [holdsExpression_eq_false_iff, tokens_eq_nil_iff]
  · intro read input line within torn o unchecked flags options
    rw [runBy_of_input options unchecked, inputOutcome, lines?_eq_none within torn]
    exact ⟨rfl, rfl⟩
  · intro texts input given suited supplies o unchecked flags options unseparated
    have separated : Options.ofArguments (flags ++ "--" :: texts) = .ok (o.about texts) :=
      ofArguments_separated unseparated options rfl texts
    exact runBy_of_supplies given suited supplies unchecked (madeOut_of_options options) (madeOut_of_options separated)

section Example

theorem suited_sum : Suited "1+1" where
  visible blank := Bool.false_ne_true (blank '1' (by decide))
  single := by decide
  whole := by decide

theorem suited_number : Suited "2" where
  visible blank := Bool.false_ne_true (blank '2' (by decide))
  single := by decide
  whole := by decide

theorem supplies_sum_and_number : Supplies ["1+1", "2"] [10, 49, 43, 49, 13, 10, 32, 9, 10, 50] := by
  have empty : Blank "" := nofun
  have space : Blank " \t" := by simp [Blank, isBlank, blankRanges]
  have number : Supplies ["2"] [50] := .last "2"
  have behind : Supplies ["2"] [32, 9, 10, 50] := .blank space (by decide) (.inl rfl) number
  have sum : Supplies ["1+1", "2"] [49, 43, 49, 13, 10, 32, 9, 10, 50] := .line (.inr rfl) behind
  exact .blank empty (by decide) (.inl rfl) sum

theorem sum_and_number_on_lines :
    (∀ text ∈ ["1+1", "2"], Suited text) ∧ Supplies ["1+1", "2"] [10, 49, 43, 49, 13, 10, 32, 9, 10, 50] ∧
      run ["-k"] [10, 49, 43, 49, 13, 10, 32, 9, 10, 50] = run ["-k", "1+1", "2"] [] ∧
      run ["-k"] [10, 49, 43, 49, 13, 10, 32, 9, 10, 50] = run ["-k", "--", "1+1", "2"] [] := by
  have suited : ∀ text ∈ ["1+1", "2"], Suited text := by
    intro text member
    simp only [List.mem_cons, List.not_mem_nil, or_false] at member
    rcases member with rfl | rfl
    · exact suited_sum
    · exact suited_number
  have plain := input_as_arguments.1 madeOut _ _ (by decide) suited supplies_sum_and_number
    ⟨false, false, true, 0, none, []⟩ rfl ["-k"] ["-k", "1+1", "2"] rfl rfl []
  have separated := input_as_arguments.2.2.2 _ _ (by decide) suited supplies_sum_and_number
    ⟨false, false, true, 0, none, []⟩ rfl ["-k"] rfl (by decide) []
  exact ⟨suited, supplies_sum_and_number, plain, separated⟩

end Example

end CommandLine

end Reckon
