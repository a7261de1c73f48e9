import FlowScript.Proofs.LosslessLexing
import FlowScript.Proofs.ParserProgress
/-!
# Lexing on demand

A program is read from a text by a parser that asks for one token after the other, so the lexical problems of
a text are found only as far as the parser looks.  It looks at every token unless nesting that goes too deep
ends the program, and so it also finds every problem.  Lexical problems are found in the order of their
positions, those of the escapes inside a string included, and hence keep their order when they are put in
order together with the syntax problems.

Main statement: `parseText_diagnostics`.
-/

namespace FlowScript

/-! ## The part of a stream that is read -/

namespace TokenStream

theorem read_isPrefix (count : Nat) (stream : TokenStream) : read count stream <+: stream := by
  fun_induction read count stream with
  | case1 | case2 => exact List.nil_prefix
  | case3 _ _ _ ih | case4 _ _ _ _ ih => exact (List.prefix_cons_inj _).mpr ih

/-- A stream is read to its end if more tokens are asked for than there are before its last event. -/
theorem read_append {count : Nat} {front last : TokenStream} (more : front.tokens.length < count)
    (short : last.length ≤ 1) : read count (front ++ last) = front ++ last := by
  induction front generalizing count with
  | nil =>
    obtain ⟨count, rfl⟩ := Nat.exists_eq_succ_of_ne_zero (Nat.ne_of_gt more)
    match last, short with
    | [], _ => rfl
    | [.token token], _ => cases count <;> rfl
    | [.problem _ _], _ | [.failure _], _ => rfl
  | cons event front ih =>
    obtain ⟨count, rfl⟩ := Nat.exists_eq_succ_of_ne_zero (Nat.ne_zero_of_lt more)
    cases event with
    | token token => rw [List.cons_append, read, ih (Nat.lt_of_succ_lt_succ more)]
    | problem | failure =>
      rw [List.cons_append, read, ih more]
      nofun

end TokenStream

/-- The parser looks at all tokens and at the end of the input, unless nesting goes too deep. -/
theorem parseTokens_demanded (maxDepth stack : Nat) (view : View)
    (flat : ∀ report ∈ (parseTokens maxDepth view.shown stack).reports, report.problem.isNesting = false) :
    (parseTokens maxDepth view.shown stack).demanded = view.before.length + 1 := by
  obtain ⟨outcome, cur, -, -, demanded, rest⟩ := parseTokens_run maxDepth stack view
  rcases outcome with (report | report) | stmts
  · exact rest.elim
  · obtain ⟨deep, reports⟩ := rest
    exact absurd (flat report (by simp [reports])) (by simp [deep])
  · exact demanded.trans rest.1.2

/-- So it also finds all that there is in a text. -/
theorem read_ofText (maxDepth stack : Nat) (src : String)
    (flat : ∀ report ∈ (parseTokens maxDepth (TokenStream.ofText src).tokens stack).reports,
      report.problem.isNesting = false) :
    (TokenStream.ofText src).read (parseTokens maxDepth (TokenStream.ofText src).tokens stack).demanded =
      TokenStream.ofText src := by
  obtain ⟨front, covers, same | ⟨-, -, -, overflow, -, -, same⟩⟩ := TokenStream.ofText_shape src
  · -- the end of the input is the last token
    let input : Input :=
      { before := front.tokens
        last := ⟨.endOfInput, "", .nil, .following src.toList⟩
        proper := covers.inner
        ends := rfl }
    have shown : input.view.shown = (TokenStream.ofText src).tokens := by
      rw [same, TokenStream.tokens_append]
      rfl
    rw [← shown] at flat ⊢
    rw [parseTokens_demanded maxDepth stack input flat, same]
    exact TokenStream.read_append (Nat.lt_succ_self _) (Nat.le_refl 1)
  · -- the tokens break off at a number that cannot be read
    let view : View := ⟨⟨front.tokens, Cursor.missing, [], covers.inner, rfl⟩, front.tokens, .inr ⟨rfl, rfl⟩⟩
    have shown : view.shown = (TokenStream.ofText src).tokens := by
      rw [same, TokenStream.tokens_append]
      exact (List.append_nil _).symm
    rw [← shown] at flat ⊢
    rw [parseTokens_demanded maxDepth stack view flat, same]
    exact TokenStream.read_append (Nat.lt_succ_self _) (Nat.le_refl 1)

/-! ## Diagnostics in text order -/

namespace Diagnostic

theorem before_iff {left right : Diagnostic} : left.before right = true ↔
    left.order.1 < right.order.1 ∨ left.order.1 = right.order.1 ∧ left.order.2 ≤ right.order.2 := by
  simp [before]

theorem before_trans (first second third : Diagnostic) (h : first.before second = true)
    (later : second.before third = true) : first.before third = true := by
  rw [before_iff] at *
  omega

theorem before_total (left right : Diagnostic) : (left.before right || right.before left) = true := by
  rw [Bool.or_eq_true, before_iff, before_iff]
  omega

/-- Diagnostics that are in order among themselves keep their order. -/
theorem filter_sorted {p : Diagnostic → Bool} {diagnostics : List Diagnostic}
    (ordered : (diagnostics.filter p).Pairwise fun left right => left.before right = true) :
    (sorted diagnostics).filter p = diagnostics.filter p := by
  have same : ((sorted diagnostics).filter p).Perm (diagnostics.filter p) :=
    (List.mergeSort_perm _ _).filter p
  have kept : (diagnostics.filter p).Sublist (sorted diagnostics) :=
    List.sublist_mergeSort before_trans before_total ordered List.filter_sublist
  have within := kept.filter p
  rw [List.filter_filter, List.filter_congr fun _ _ => Bool.and_self _] at within
  exact (within.eq_of_length same.length_eq.symm).symm

/-- Diagnostics of one place keep their order. -/
theorem filter_order_sorted (diagnostics : List Diagnostic) (place : Nat × Nat) :
    (sorted diagnostics).filter (·.order = place) = diagnostics.filter (·.order = place) := by
  refine filter_sorted (List.pairwise_of_forall_mem_list fun left first right second => ?_)
  have same : left.order = place := of_decide_eq_true (List.mem_filter.mp first).2
  have equal : right.order = place := of_decide_eq_true (List.mem_filter.mp second).2
  rw [before_iff, same, equal]
  exact .inr ⟨rfl, Nat.le_refl _⟩

end Diagnostic

/-- Whether a diagnostic is of lexing. -/
def Diagnostic.isLexical (diagnostic : Diagnostic) : Bool := diagnostic.phase = some .lexer

/-- The diagnostics of the problems of a stream, in the order in which they are met. -/
def TokenStream.diagnostics (stream : TokenStream) (file : String) : List Diagnostic :=
  stream.problems.map fun (problem, pos) => problem.diagnostic file pos

/-- The diagnostics of what a parser reports, in the order in which it is reported. -/
def ParsedTokens.diagnostics (parsed : ParsedTokens) (file : String) : List Diagnostic :=
  parsed.reports.map fun report => report.problem.diagnostic file report.position

theorem ordered_diagnostics (file src : String) :
    ((TokenStream.ofText src).diagnostics file).Pairwise fun left right => left.before right = true := by
  obtain ⟨front, covers, outcome⟩ := TokenStream.ofText_shape src
  have same : (TokenStream.ofText src).problems = front.problems := by
    rcases outcome with same | ⟨-, -, -, overflow, -, -, same⟩ <;> rw [same] <;> simp [TokenStream.problems]
  have places := covers.ordered.pairwise
  rw [TokenStream.places, List.pairwise_map, ← same] at places
  rw [TokenStream.diagnostics, List.pairwise_map]
  exact places.imp fun notAfter => Diagnostic.before_iff.mpr notAfter

/-- The phase tells lexical problems and syntax problems apart. -/
theorem filter_isLexical (stream : TokenStream) (parsed : ParsedTokens) (file : String) :
    (stream.diagnostics file ++ parsed.diagnostics file).filter Diagnostic.isLexical =
      stream.diagnostics file := by
  have own : ∀ diagnostic ∈ stream.diagnostics file, diagnostic.isLexical = true := by
    rw [TokenStream.diagnostics, List.forall_mem_map]
    exact fun _ _ => rfl
  have other : ∀ diagnostic ∈ parsed.diagnostics file, ¬diagnostic.isLexical = true := by
    rw [ParsedTokens.diagnostics, List.forall_mem_map]
    exact fun _ _ => nofun
  rw [List.filter_append, List.filter_eq_self.mpr own, List.filter_eq_nil_iff.mpr other, List.append_nil]

/-- **Lexing on demand finds what lexing finds.** The lexical problems that come with a program are the first
ones of its text, in their order, and all of them unless nesting that goes too deep ended the program.  They
stand among the syntax problems in the order of the positions, and before those at the same position.  There is
no program only if the text has a number that cannot be read. -/
theorem parseText_diagnostics (file : String) (maxDepth stack : Nat) (source : String) :
    match parseText file maxDepth source stack with
    | .error overflow => (TokenStream.ofText source).failure? = some overflow
    | .ok read =>
      let stream := TokenStream.ofText source
      let parsed := parseTokens maxDepth stream.tokens stack
      let lexical := read.diagnostics.filter Diagnostic.isLexical
      lexical <+: stream.diagnostics file ∧
        ((∀ report ∈ parsed.reports, report.problem.isNesting = false) →
          lexical = stream.diagnostics file ∧ stream.failure? = none) ∧
        read.diagnostics.Perm (lexical ++ parsed.diagnostics file) ∧
        read.diagnostics.Pairwise (fun left right => left.before right = true) ∧
        ∀ place, read.diagnostics.filter (·.order = place) =
          (lexical ++ parsed.diagnostics file).filter (·.order = place) := by
  let stream := TokenStream.ofText source
  let parsed := parseTokens maxDepth stream.tokens stack
  -- the stream is read only as far as the parser asks
  have part := TokenStream.read_isPrefix parsed.demanded stream
  cases failed : (stream.read parsed.demanded).failure? with
  | some overflow =>
    have result : parseText file maxDepth source stack = .error overflow := by
      simp only [parseText]
      rw [failed]
    rw [result]
    obtain ⟨later, whole⟩ := part
    change stream.failure? = some overflow
    rw [← whole, TokenStream.failure?, List.findSome?_append, ← TokenStream.failure?, failed, Option.some_or]
  | none =>
    let found := (stream.read parsed.demanded).diagnostics file
    have result : parseText file maxDepth source stack =
        .ok ⟨parsed.program, Diagnostic.sorted (found ++ parsed.diagnostics file)⟩ := by
      simp only [parseText]
      rw [failed]
      rfl
    have early : found <+: stream.diagnostics file := (part.filterMap _).map _
    have lexical : (found ++ parsed.diagnostics file).filter Diagnostic.isLexical = found :=
      filter_isLexical _ parsed file
    have kept : (Diagnostic.sorted (found ++ parsed.diagnostics file)).filter Diagnostic.isLexical = found := by
      refine (Diagnostic.filter_sorted ?_).trans lexical
      rw [lexical]
      exact (ordered_diagnostics file source).sublist early.sublist
    rw [result]
    dsimp only
    rw [kept]
    refine ⟨early, fun flat => ?_, List.mergeSort_perm _ _,
      List.pairwise_mergeSort Diagnostic.before_trans Diagnostic.before_total _,
      Diagnostic.filter_order_sorted _⟩
    -- a parser that no nesting cuts off asks for all tokens
    have all : stream.read parsed.demanded = stream := read_ofText maxDepth stack source flat
    rw [all] at failed
    exact ⟨congrArg (TokenStream.diagnostics · file) all, failed⟩

end FlowScript
