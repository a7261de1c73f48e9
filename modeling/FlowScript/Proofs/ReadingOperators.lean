import FlowScript.Proofs.ReadingTypes
/-!
# Reading operators by rank

The grammar has a rule for each rank of operators, and each rule reads operands of the next rank with
its own operators between them.  What is written as a tree that leans to the left is read by a loop, so
what carries an induction over a tree is not what is read of an expression alone, but what a loop reads
that goes on behind it: `Level.Continues`.  Assignments lean to the right, and what is assigned is read by
the level.

Main statements: `Level.Continues.step`, `Level.readsAssignment`, and `Level.reads_of_le`, by which looser
rules read whatever tighter rules read.
-/

namespace FlowScript

open Parse

/-! ## What may follow an expression -/

/-- How tight a token binds to an expression in front of it: the operators of a rank bind one tighter
than the rank, and what is 0 cannot belong to an expression. -/
def TokenKind.tightness : TokenKind → Nat
  | .equal => 1
  | .kwOr => 2
  | .kwAnd => 3
  | .equalEqual | .notEqual => 4
  | .less | .lessEqual | .greater | .greaterEqual | .kwIs => 5
  | .plus | .minus => 6
  | .star | .slash | .percent => 7
  | .leftParen | .dot | .bang => 9
  | .question | .arrow => 10
  | _ => 0

/-- Whether an expression of a rank can end before tokens of these kinds. -/
def Below (rank : Nat) (kinds : List TokenKind) : Prop := (nextKind kinds).tightness ≤ rank

theorem Below.mono {low high : Nat} {kinds : List TokenKind} (h : Below low kinds) (le : low ≤ high) :
    Below high kinds := Nat.le_trans h le

theorem Below.endsType {kinds : List TokenKind} (h : Below 9 kinds) : EndsType kinds := by
  refine ⟨fun same => ?_, fun same => ?_⟩ <;>
    · rw [Below, same] at h
      simp [TokenKind.tightness] at h

theorem BinaryOp.tightness_kind (op : BinaryOp) : op.kind.tightness = op.rank + 1 := by
  cases op <;> rfl

theorem LogicalOp.tightness_kind (op : LogicalOp) : op.kind.tightness = op.rank + 1 := by
  cases op <;> rfl

/-! ## What an expression starts with -/

/-- Whether an expression without an operator in front starts with a token of this kind. -/
def TokenKind.startsPrimary : TokenKind → Bool
  | .integer | .float | .string | .kwTrue | .kwFalse | .kwNil | .identifier | .kwSelf | .leftParen
  | .kwFn => true
  | _ => false

/-- Whether words start like an expression without an operator in front. -/
def StartsPrimary : List Word → Prop
  | [] => False
  | first :: rest => first.kind.startsPrimary = true ∧
      (first.kind = .kwFn → ∃ more, rest = .mark .leftParen :: more)

/-- Whether words start like an expression. -/
def StartsExpression (words : List Word) : Prop :=
  StartsPrimary words ∨ ∃ (op : UnaryOp) (rest : List Word), words = .mark op.kind :: rest

theorem StartsPrimary.append {words : List Word} (h : StartsPrimary words) (more : List Word) :
    StartsPrimary (words ++ more) := by
  cases words with
  | nil => exact h.elim
  | cons first rest =>
    refine ⟨h.1, fun isFn => ?_⟩
    obtain ⟨others, rfl⟩ := h.2 isFn
    exact ⟨others ++ more, rfl⟩

theorem StartsExpression.append {words : List Word} (h : StartsExpression words) (more : List Word) :
    StartsExpression (words ++ more) := by
  rcases h with primary | ⟨op, rest, rfl⟩
  · exact .inl (primary.append more)
  · exact .inr ⟨op, rest ++ more, rfl⟩

theorem StartsPrimary.parenthesized (written : Written) :
    StartsPrimary (written.between .leftParen .rightParen).words := by
  rw [Written.words_between]
  exact ⟨rfl, fun isFn => by simp [Word.kind] at isFn⟩

theorem StartsPrimary.grouped {written : Written} {needed : Bool}
    (h : needed = false → StartsPrimary written.words) :
    StartsPrimary (written.grouped needed).words := by
  cases needed with
  | false => exact h rfl
  | true => exact parenthesized written

theorem StartsExpression.grouped {written : Written} {needed : Bool}
    (h : StartsExpression written.words) : StartsExpression (written.grouped needed).words := by
  cases needed with
  | false => exact h
  | true => exact .inl (.parenthesized written)

theorem StartsPrimary.literal (value : Literal) : StartsPrimary [.literal value] := by
  cases value with
  | bool flag => cases flag <;> exact ⟨rfl, nofun⟩
  | _ => exact ⟨rfl, nofun⟩

/-- Expressions of the highest ranks start without an operator in front. -/
theorem Expr.startsPrimary : ∀ e : Expr, 8 ≤ e.rank → StartsPrimary e.written.words
  | .literal _ value, _ => .literal value
  | .name .., _ => ⟨rfl, nofun⟩
  | .self _, _ => ⟨rfl, nofun⟩
  | .binary _ op _ _, high => by cases op <;> simp [rank, BinaryOp.rank] at high
  | .logical _ op _ _, high => by cases op <;> simp [rank, LogicalOp.rank] at high
  | .unary .., high => by simp [rank] at high
  | .is .., high => by simp [rank] at high
  | .unwrap _ value, _ =>
    .append (.grouped fun loose => value.startsPrimary (by simpa using loose)) _
  | .assign .., high => by simp [rank] at high
  | .assignField .., high => by simp [rank] at high
  | .call _ fn _, _ => by
    simp only [written, Written.words_append, List.append_assoc]
    refine .append (.grouped fun loose => fn.startsPrimary ?_) _
    simp only [Bool.or_eq_false_iff, decide_eq_false_iff_not] at loose
    omega
  | .field _ object _, _ => by
    simp only [written, Written.words_append, List.append_assoc]
    exact .append (.grouped fun loose => object.startsPrimary (by simpa using loose)) _
  | .methodCall _ recv _ _, _ => by
    simp only [written, Written.words_append, List.append_assoc]
    exact .append (.grouped fun loose => recv.startsPrimary (by simpa using loose)) _
  | .closure .., _ => by
    simp only [written, writtenParams, Written.words_append, Written.words_mark]
    exact ⟨rfl, fun _ => ⟨_, rfl⟩⟩

/-- What an expression starts with. -/
theorem Expr.starts (e : Expr) : StartsExpression e.written.words := by
  by_cases high : 8 ≤ e.rank
  · exact .inl (e.startsPrimary high)
  · cases e with
    | binary note op left right =>
      simp only [written, Written.words_append, List.append_assoc]
      exact .append (.grouped left.starts) _
    | logical note op left right =>
      simp only [written, Written.words_append, List.append_assoc]
      exact .append (.grouped left.starts) _
    | unary note op operand => exact .inr ⟨op, _, rfl⟩
    | is note value type target =>
      simp only [written, Written.words_append, List.append_assoc]
      exact .append (.grouped value.starts) _
    | assign note target ident value => exact .inl ⟨rfl, nofun⟩
    | assignField note target object member value =>
      simp only [written, Written.words_append, List.append_assoc]
      exact .append (.grouped object.starts) _
    | _ => exact absurd (by simp [rank]) high

theorem StartsExpression.nextKind_ne {words : List Word} (h : StartsExpression words)
    (kinds : List TokenKind) {kind : TokenKind}
    (other : kind.startsPrimary = false ∧ kind ≠ .minus ∧ kind ≠ .bang) :
    nextKind (words.map Word.kind ++ kinds) ≠ kind := by
  rcases h with primary | ⟨op, rest, rfl⟩
  · cases words with
    | nil => exact primary.elim
    | cons first rest =>
      rintro rfl
      exact absurd (primary.1.symm.trans other.1) (by simp)
  · cases op with
    | neg => exact other.2.1.symm
    | not => exact other.2.2.symm

/-! ## The rules of the grammar by rank -/

/-- Whether an expression that was read is the one that was written. -/
abbrev Expr.Same (e found : Expr) : Prop := found.unplaced = e.unplaced

namespace Level

/-- The rule for expressions of a rank. -/
def rule (level : Level) : Nat → Parse Expr
  | 0 => level.assignment
  | 1 => level.disjunction
  | 2 => level.conjunction
  | 3 => level.equality
  | 4 => level.comparison
  | 5 => level.sum
  | 6 => level.product
  | 7 => level.unary
  | 8 => level.suffixed
  | _ => level.primary

/-- The ranks whose rule is a loop behind the rule of the next rank. -/
def loopRanks : List Nat := [1, 2, 3, 4, 5, 6, 8]

/-- The operators with a right operand that belong to a rank. -/
def operator? (rank : Nat) (kind : TokenKind) : Option Combine :=
  match rank with
  | 1 => orOperator? kind
  | 2 => andOperator? kind
  | 3 => equalityOperator? kind
  | 4 => orderingOperator? kind
  | 5 => sumOperator? kind
  | 6 => productOperator? kind
  | _ => none

/-- One round of the loop of a rank. -/
def step (level : Level) : Nat → Expr → Parse (Option Expr)
  | 4 => level.comparisonStep
  | 8 => level.suffix
  | rank => chainStep (operator? rank) (level.rule (rank + 1))

theorem rule_eq (level : Level) {rank : Nat} (loop : rank ∈ loopRanks) :
    level.rule rank = level.rule (rank + 1) >>= Parse.iterate (level.step rank) := by
  simp only [loopRanks, List.mem_cons, List.not_mem_nil, or_false] at loop
  rcases loop with rfl | rfl | rfl | rfl | rfl | rfl | rfl <;> rfl

theorem operator?_binary (op : BinaryOp) :
    operator? op.rank op.kind = some fun note => .binary note op := by
  cases op <;> rfl

theorem operator?_logical (op : LogicalOp) :
    operator? op.rank op.kind = some fun note => .logical note op := by
  cases op <;> rfl

/-- The operators of a rank bind tighter than the rank. -/
theorem operator?_eq_none {rank : Nat} {kind : TokenKind} (below : kind.tightness ≤ rank) :
    operator? rank kind = none := by
  cases found : operator? rank kind with
  | none => rfl
  | some combine =>
    suffices kind.tightness = rank + 1 by omega
    unfold operator? at found
    unfold orOperator? andOperator? equalityOperator? orderingOperator? sumOperator?
      productOperator? at found
    repeat' split at found
    all_goals first | rfl | cases found

variable {level : Level}

/-- A chain ends before what does not bind tighter. -/
theorem chainStep_stops {operand : Parse Expr} {left : Expr} (rank : Nat) :
    Reads (chainStep (operator? rank) operand left) [] (Below rank) (· = none) := by
  refine .peekEnd fun token kinds below seen => ?_
  rw [seen, operator?_eq_none below]
  exact .pure rfl

/-- The loop of a rank ends before what does not bind tighter. -/
theorem step_stops (rank : Nat) (left : Expr) :
    Reads (level.step rank left) [] (Below rank) (· = none) := by
  unfold step
  split
  · refine .peekEnd fun token kinds below seen => ?_
    rw [Below, ← seen] at below
    rw [if_neg]
    · exact chainStep_stops 4
    · intro isIs
      simp [isIs, TokenKind.tightness] at below
  · refine .peekEnd fun token kinds below seen => ?_
    rw [Below, ← seen] at below
    generalize token.kind = kind at below
    split
    case h_4 => exact .pure rfl
    all_goals exact absurd below (by decide)
  · exact chainStep_stops _

/-! ## Loops that go on behind an expression -/

/-- Whether the rule of a rank reads words as an expression and then goes on with its loop, for whatever
the loop reads then. What follows the words has to satisfy `ends`. -/
def Continues (level : Level) (rank : Nat) (words : List Word) (ends : List TokenKind → Prop)
    (e : Expr) : Prop :=
  ∀ (more : List Word) (follow : List TokenKind → Prop) (res : Expr → Prop),
    (∀ found, e.Same found → Loops (level.step rank) found more follow res) →
    (∀ kinds, follow kinds → ends (more.map Word.kind ++ kinds)) →
    Reads (level.rule rank) (words ++ more) follow res

namespace Continues

variable {rank : Nat} {words added : List Word} {ends after : List TokenKind → Prop} {e whole : Expr}

/-- What the rule of the next rank reads. -/
theorem start (loop : rank ∈ loopRanks) (h : Reads (level.rule (rank + 1)) words ends e.Same) :
    level.Continues rank words ends e := by
  intro more follow res loops meets
  rw [rule_eq level loop]
  exact h.bind (fun found same => (loops found same).iterate) meets

variable (h : level.Continues rank words ends e)

include h

/-- One more round of the loop. -/
theorem step (round : ∀ found, e.Same found → Reads (level.step rank found) added after
      fun next => ∃ value, next = some value ∧ whole.Same value)
    (taking : added ≠ []) (meets : ∀ kinds, after kinds → ends (added.map Word.kind ++ kinds)) :
    level.Continues rank (words ++ added) after whole := by
  intro more follow res loops others
  rw [List.append_assoc]
  refine h (added ++ more) follow res (fun found same => ?_) fun kinds holds => ?_
  · exact Loops.next (round found same) taking (fun value found => loops value found) others
  · rw [List.map_append, List.append_assoc]
    exact meets _ (others kinds holds)

theorem narrow (imp : ∀ kinds, after kinds → ends kinds) :
    level.Continues rank words after e :=
  fun more follow res loops meets =>
    h more follow res loops fun kinds holds => imp _ (meets kinds holds)

/-- The loop ends. -/
theorem reads (meets : ∀ kinds, Below rank kinds → ends kinds) :
    Reads (level.rule rank) words (Below rank) e.Same := by
  have := h [] (Below rank) e.Same (fun found same => .stop (step_stops rank found) same) meets
  rwa [List.append_nil] at this

end Continues

/-! ## Looser rules -/

/-- What is no assignment ends before what is no equals sign. -/
theorem assignment_of_disjunction {words : List Word} {e : Expr}
    (h : Reads level.disjunction words (Below 1) e.Same) : Reads level.assignment words (Below 0) e.Same := by
  refine h.bindLast (fun found same => ?_) fun kinds below => below.mono (by decide)
  refine .peekEnd fun token kinds below seen => .acceptNo (fun kinds below isEqual => ?_) (.pure same)
  rw [Below, show nextKind kinds = .equal from isEqual] at below
  exact absurd below (by decide)

/-- A target with what is assigned to it. -/
theorem readsAssignment {left words : List Word} {target value whole : Expr}
    (reads : Reads level.disjunction left (Below 1) target.Same)
    (readsValue : Reads level.value words (Below 0) value.Same)
    (assigned : ∀ found last token, target.Same found → value.Same last →
      Reads (assignTo last (found, token)) [] Anywhere whole.Same) :
    Reads level.assignment (left ++ .mark .equal :: words) (Below 0) whole.Same := by
  refine reads.bind (fun found same => ?_) fun kinds _ => Nat.le_refl 1
  refine .peek fun token _ => .acceptYes (by decide) ?_
  refine readsValue.bindLast (fun last sameLast => ?_) fun _ => id
  exact (assigned found last token same sameLast).before fun _ _ => trivial

/-- What has no operator in front. -/
theorem unary_of_suffixed {words : List Word} {e : Expr} (primary : StartsPrimary words)
    (h : Reads level.suffixed words (Below 8) e.Same) :
    Reads level.unary words (Below 7) e.Same := by
  cases words with
  | nil => exact primary.elim
  | cons first rest =>
    refine .peek fun token spelled => ?_
    have starts : token.kind.startsPrimary = true := spelled.kind_eq ▸ primary.1
    generalize token.kind = kind at starts
    split
    case h_3 => exact h.before fun kinds below => below.mono (by decide)
    all_goals exact absurd starts (by decide)

/-- The rule of a rank reads what the rule of the next rank reads. -/
theorem reads_of_next {rank : Nat} {words : List Word} {e : Expr}
    (h : Reads (level.rule (rank + 1)) words (Below (rank + 1)) e.Same)
    (primary : rank = 7 → StartsPrimary words) :
    Reads (level.rule rank) words (Below rank) e.Same := by
  by_cases loop : rank ∈ loopRanks
  · exact (Continues.start loop h).reads fun kinds below => below.mono (by omega)
  · match rank, loop with
    | 0, _ => exact assignment_of_disjunction h
    | 7, _ => exact unary_of_suffixed (primary rfl) h
    | rank + 9, _ => exact h.before fun kinds below => below.mono (by omega)

/-- The rule of a rank reads what the rule of a higher rank reads. -/
theorem reads_of_le {low high : Nat} {words : List Word} {e : Expr} (le : low ≤ high)
    (h : Reads (level.rule high) words (Below high) e.Same)
    (primary : 8 ≤ high → StartsPrimary words) :
    Reads (level.rule low) words (Below low) e.Same := by
  induction le with
  | refl => exact h
  | step le ih => exact ih (reads_of_next h fun is7 => primary (by omega)) fun high => primary (by omega)

end Level

end FlowScript
