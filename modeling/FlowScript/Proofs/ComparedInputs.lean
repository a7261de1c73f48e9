import Mathlib.Data.List.DropRight
import FlowScript.Proofs.ProgressLogic
import FlowScript.Proofs.ReadingStatements
/-!
# Inputs with tokens in common

A `Comparison` is of two inputs with tokens in common.  The right one may have more of them in front.  Where
the left one ends, the right one ends too, or else the left one breaks off and the right one goes on behind a
terminator.

Cursors are `Comparison.Aligned` if they are at the same place of what is common, and then both sides see the
same token next, unless the left input breaks off there.  They are `Comparison.Past` each other if the left
input is exhausted and the right cursor has taken terminators only beyond that.

Main statement: `Comparison.Aligned.tokenAt`.
-/

namespace FlowScript

open Parse (Proceeds)

/-! ## Comparisons -/

/-- Two inputs with tokens in common. -/
structure Comparison where
  left : View
  right : View
  /-- How many tokens the right input has in front of the common ones. -/
  shift : Nat
  /-- What stands in the right input where the left one ends. -/
  tail : List Token
  /-- Whether the left input breaks off. -/
  breaksOff : Bool
  /-- Whether nesting is limited more tightly on the left. -/
  tighter : Bool
  inFront : shift ≤ right.before.length
  common : right.shown.drop shift = left.before ++ tail
  whole : breaksOff = false → left.shown = left.before ++ tail
  goesOn : breaksOff = true →
    nextKind (tail.map Token.kind) = .terminator ∧ NoElse (tail.map Token.kind)

namespace Comparison

/-- Two inputs that end alike: the right one is the left one with other tokens in front. -/
def endingAlike (left right : Input) (shift : Nat) (tighter : Bool) (inFront : shift ≤ right.before.length)
    (common : right.tokens.drop shift = left.tokens) : Comparison where
  left
  right
  shift
  tail := left.last :: left.beyond
  breaksOff := false
  tighter
  inFront
  common
  whole _ := rfl
  goesOn off := absurd off Bool.false_ne_true

/-- What is shown of an input, beside itself. -/
def alone (view : View) : Comparison where
  left := view
  right := view
  shift := 0
  tail := view.shown.drop view.before.length
  breaksOff := false
  tighter := false
  inFront := Nat.zero_le _
  common := view.shown_eq
  whole _ := view.shown_eq
  goesOn off := absurd off Bool.false_ne_true

variable (sides : Comparison)

/-- The common tokens stand before the end of the right input. -/
theorem length_le :
    sides.left.before.length + sides.shift ≤ sides.right.before.length := by
  by_contra beyond
  -- otherwise the end of the right input is one of the common tokens
  obtain ⟨place, same⟩ := Nat.exists_eq_add_of_le sides.inFront
  have inside : place < sides.left.before.length := by omega
  obtain ⟨rest, shown, ends⟩ := sides.right.drop_shown (Nat.le_refl _)
  rw [List.drop_length, List.nil_append, same, ← List.drop_drop, sides.common,
    List.drop_append_of_le_length (Nat.le_of_lt inside), List.drop_eq_getElem_cons inside] at shown
  rw [← shown] at ends
  exact sides.left.proper _ (List.getElem_mem inside) ends

/-- Whether two cursors are at the same place, with the same problems reported: none, if the left input
breaks off. -/
structure Aligned (left right : Cursor) : Prop where
  onLeft : left.Within sides.left
  onRight : right.Within sides.right
  consumed : right.consumed = left.consumed + sides.shift
  reports : right.reports = left.reports
  silent : sides.breaksOff = true → left.reports = #[]

/-- Whether the left cursor is at the end of an input that breaks off. -/
structure Exhausted (left : Cursor) : Prop where
  off : sides.breaksOff = true
  on : left.Within sides.left
  all : left.consumed = sides.left.before.length

/-- The tokens from the first one on that is no terminator. -/
def unterminated (tokens : List Token) : List Token :=
  tokens.dropWhile fun token => token.kind = .terminator

/-- Whether the left cursor is at the end of its input and the right one has taken terminators only beyond
that. -/
structure Past (left right : Cursor) : Prop where
  exhausted : sides.Exhausted left
  onRight : right.Within sides.right
  rest : unterminated right.rest = unterminated sides.tail
  silentLeft : left.reports = #[]
  silentRight : right.reports = #[]

variable {sides} {α : Type} {left right : Cursor}

section

variable (aligned : sides.Aligned left right)

include aligned

/-- What is left on both sides of aligned cursors. -/
theorem Aligned.rest :
    ∃ ending, left.rest = sides.left.before.drop left.consumed ++ ending ∧
      (ending.headD Cursor.missing).kind = .endOfInput ∧
      right.rest = sides.left.before.drop left.consumed ++ sides.tail := by
  have taken : left.consumed ≤ sides.left.before.length := aligned.onLeft.taken
  obtain ⟨ending, shown, ends⟩ := sides.left.drop_shown taken
  refine ⟨ending, aligned.onLeft.rest.trans shown, ends, ?_⟩
  rw [aligned.onRight.rest, aligned.consumed, Nat.add_comm, ← List.drop_drop, sides.common,
    List.drop_append_of_le_length taken]

theorem Aligned.rest_eq (whole : sides.breaksOff = false) :
    right.rest = left.rest := by
  rw [aligned.onLeft.rest, aligned.onRight.rest, aligned.consumed, Nat.add_comm, ← List.drop_drop, sides.common,
    sides.whole whole]

/-- Looking ahead, both sides see the same token, or the left one sees the end of its input and the right one
the terminator there. -/
theorem Aligned.tokenAt (ahead : Nat) (within : left.consumed + ahead ≤ sides.left.before.length) :
    right.tokenAt ahead = left.tokenAt ahead ∨
      sides.breaksOff = true ∧ (left.tokenAt ahead).kind = .endOfInput ∧
        (right.tokenAt ahead).kind = .terminator := by
  obtain ⟨ending, rest, -, other⟩ := aligned.rest
  rcases Nat.lt_or_ge (left.consumed + ahead) sides.left.before.length with inside | all
  · left
    have inside : ahead < (sides.left.before.drop left.consumed).length := by
      rw [List.length_drop]
      omega
    rw [Cursor.tokenAt, Cursor.tokenAt, rest, other, List.getElem?_append_left inside,
      List.getElem?_append_left inside]
  · cases off : sides.breaksOff with
    | false =>
      left
      rw [Cursor.tokenAt, Cursor.tokenAt, aligned.rest_eq off]
    | true =>
      -- the left input is at its end, and the right one at the first token of what follows
      have last : left.consumed + ahead = sides.left.before.length := by omega
      have here : ahead = (sides.left.before.drop left.consumed).length := by
        rw [List.length_drop]
        omega
      refine .inr ⟨rfl, (aligned.onLeft.kind_eq_end_iff within).mpr last, ?_⟩
      have mark := (sides.goesOn off).1
      rw [Cursor.tokenAt, other, List.getElem?_append_right (Nat.le_of_eq here.symm), here,
        Nat.sub_self]
      cases tail : sides.tail with
      | nil =>
        rw [tail] at mark
        cases mark
      | cons token rest =>
        rw [tail] at mark
        exact mark

theorem Aligned.look {ahead : Nat} (within : left.consumed + ahead ≤ sides.left.before.length) :
    sides.Aligned (left.look ahead) (right.look ahead) := by
  have bound := sides.length_le
  have same := aligned.consumed
  have inside : right.consumed + ahead ≤ sides.right.before.length := by omega
  exact ⟨aligned.onLeft.look within, aligned.onRight.look inside, same, aligned.reports,
    aligned.silent⟩

theorem Aligned.skip {count : Nat} (within : left.consumed + count ≤ sides.left.before.length) :
    sides.Aligned (left.skip count) (right.skip count) := by
  have bound := sides.length_le
  have same := aligned.consumed
  have inside : right.consumed + count ≤ sides.right.before.length := by omega
  refine ⟨aligned.onLeft.skip within, aligned.onRight.skip inside, ?_, aligned.reports,
    aligned.silent⟩
  simp only [Cursor.consumed_skip]
  omega

theorem Aligned.peeked :
    sides.Aligned (left.look 0) (right.look 0) := aligned.look aligned.onLeft.taken

/-- A run of tokens is the same on both sides, unless it goes on where the left input breaks off. -/
theorem Aligned.leading {p : TokenKind → Bool} (stops : p .endOfInput = false) :
    right.leading p = left.leading p ∧
        (sides.breaksOff = true →
          left.consumed + left.leading p < sides.left.before.length) ∨
      sides.breaksOff = true ∧
        left.consumed + left.leading p = sides.left.before.length ∧
        right.rest.dropWhile (fun token => p token.kind) =
          sides.tail.dropWhile fun token => p token.kind := by
  have taken : left.consumed ≤ sides.left.before.length := aligned.onLeft.taken
  obtain ⟨ending, rest, ends, other⟩ := aligned.rest
  cases off : sides.breaksOff with
  | false => exact .inl ⟨by rw [Cursor.leading, Cursor.leading, aligned.rest_eq off], nofun⟩
  | true =>
    obtain ⟨common, size⟩ : ∃ common, common = sides.left.before.drop left.consumed := ⟨_, rfl⟩
    have length : common.length = sides.left.before.length - left.consumed := by
      rw [size, List.length_drop]
    have none : ending.takeWhile (fun token => p token.kind) = [] := by
      cases ending with
      | nil => rfl
      | cons token rest => exact List.takeWhile_cons_of_neg (by rw [show token.kind = _ from ends, stops]; simp)
    rw [Cursor.leading, Cursor.leading, rest, other, ← size, List.takeWhile_append, List.takeWhile_append]
    by_cases all : (common.takeWhile fun token => p token.kind).length = common.length
    · -- all common tokens belong to the run
      have gone : common.dropWhile (fun token => p token.kind) = [] := by
        have parts := congrArg List.length
          (List.takeWhile_append_dropWhile (p := fun token : Token => p token.kind) (l := common))
        rw [List.length_append] at parts
        exact List.eq_nil_of_length_eq_zero (by omega)
      refine .inr ⟨rfl, ?_, ?_⟩
      · rw [if_pos all, none, List.append_nil]
        omega
      · rw [List.dropWhile_append, gone]
        rfl
    · -- the run ends before the seam, so both sides see all of it
      have short := (List.takeWhile_sublist (l := common) fun token => p token.kind).length_le
      rw [if_neg all, if_neg all]
      exact .inl ⟨rfl, fun _ => by omega⟩

/-- Where the left input breaks off, the tail is what is left on the right. -/
theorem Aligned.rest_of_exhausted (exhausted : sides.Exhausted left) : right.rest = sides.tail := by
  obtain ⟨-, -, -, rest⟩ := aligned.rest
  rw [rest, exhausted.all, List.drop_length, List.nil_append]

theorem Aligned.exhausted (off : sides.breaksOff = true)
    (here : (left.tokenAt 0).kind = .endOfInput) : sides.Exhausted left :=
  ⟨off, aligned.onLeft, (aligned.onLeft.kind_eq_end_iff aligned.onLeft.taken).mp here⟩

theorem Aligned.past (exhausted : sides.Exhausted left) :
    sides.Past left right := by
  have silent := aligned.silent exhausted.off
  refine ⟨exhausted, aligned.onRight, ?_, silent, aligned.reports.trans silent⟩
  rw [aligned.rest_of_exhausted exhausted]

/-- The right side sees a terminator where the left input breaks off. -/
theorem Aligned.kind_of_exhausted
    (exhausted : sides.Exhausted left) : (right.tokenAt 0).kind = .terminator := by
  have mark := (sides.goesOn exhausted.off).1
  rw [← aligned.rest_of_exhausted exhausted] at mark
  rw [Cursor.tokenAt]
  cases rest : right.rest with
  | nil =>
    rw [rest] at mark
    cases mark
  | cons token tail =>
    rw [rest] at mark
    exact mark

end

/-- An input stays exhausted, whatever is tried at its end. -/
theorem Exhausted.stays {parse : Parse α} {promise : Parse.Promise α} (exhausted : sides.Exhausted left)
    (proceeds : Proceeds sides.left promise parse) : sides.Exhausted (parse left).2 := by
  have goes := proceeds _ left exhausted.on rfl
  refine ⟨exhausted.off, goes.on, ?_⟩
  have forward := goes.forward
  have taken : (parse left).2.consumed ≤ sides.left.before.length := goes.on.taken
  have all := exhausted.all
  omega

theorem Exhausted.atEnd (exhausted : sides.Exhausted left) :
    (left.tokenAt 0).kind = .endOfInput :=
  (exhausted.on.kind_eq_end_iff exhausted.on.taken).mpr exhausted.all

theorem Exhausted.peeked (exhausted : sides.Exhausted left) : sides.Exhausted (left.look 0) :=
  ⟨exhausted.off, exhausted.on.peeked, exhausted.all⟩

/-- Skipping a run of tokens leaves the rest of the tokens. -/
theorem rest_skip_leading (cur : Cursor) (p : TokenKind → Bool) :
    (cur.skip (cur.leading p)).rest = cur.rest.dropWhile fun token => p token.kind := by
  change cur.rest.drop (cur.leading p) = _
  have parts := List.takeWhile_append_dropWhile (p := fun token : Token => p token.kind) (l := cur.rest)
  conv_lhs => rw [← parts]
  exact List.drop_left' rfl

/-- One more terminator is taken on the right. -/
theorem Past.advance (past : sides.Past left right) (mark : (right.tokenAt 0).kind = .terminator) :
    sides.Past left ((right.look 0).skip 1) := by
  have on := past.onRight
  have notEnd : (right.tokenAt 0).kind ≠ .endOfInput := by
    rw [mark]
    nofun
  have more : right.consumed + 1 ≤ sides.right.before.length := on.lt_of_kind on.taken notEnd
  refine ⟨past.exhausted, on.peeked.skip more, ?_, past.silentLeft, past.silentRight⟩
  rw [← past.rest]
  change unterminated (right.rest.drop 1) = unterminated right.rest
  conv_rhs => rw [Cursor.rest_eq_cons notEnd, unterminated, List.dropWhile_cons_of_pos (by simp [mark])]
  rw [List.drop_one]
  rfl

/-- All terminators are taken on the right. -/
theorem Past.settle (past : sides.Past left right) :
    sides.Past (Parse.skipTerminators left).2 (Parse.skipTerminators right).2 ∧
      unterminated (Parse.skipTerminators right).2.rest = (Parse.skipTerminators right).2.rest := by
  have goes := Parse.Proceeds.skipTerminators _ right past.onRight rfl
  have rest : (Parse.skipTerminators right).2.rest = unterminated right.rest := rest_skip_leading right _
  have stays := past.exhausted.stays Parse.Proceeds.skipTerminators
  refine ⟨⟨stays, goes.on, ?_, past.silentLeft, past.silentRight⟩, ?_⟩
  · rw [rest, past.rest]
    exact List.dropWhile_idempotent _ _
  · rw [rest]
    exact List.dropWhile_idempotent _ _

end Comparison

end FlowScript
