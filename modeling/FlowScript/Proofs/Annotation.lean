import FlowScript.Proofs.CheckLogic
import FlowScript.Proofs.Erasure
import Mathlib.Data.List.Forall2
/-!
# Annotated trees

Checking notes the types of a program in its tree.  A tree is *annotated* if nothing is missing there
and nothing stands for a problem: every expression has a type that is determined, every type test the
type that it tests for, every variable its type and every function its signature, and only what may be
a whole number is widened.

Types come in two degrees.  A *canonical* type mentions no problem, and each nilable type in it adds
`nil` to a type that lacks it; a *determined* type is canonical and not unknown by itself.  A function
type is determined even while its result is not known.

Main statement: `Ty.Canonical.of_widening`, that only whole numbers are ever widened.
-/

namespace FlowScript

/-! ## Canonical types -/

namespace Ty

mutual

/-- Whether a type mentions no problem, and only adds `nil` to known types that lack it. -/
def isCanonical : Ty → Bool
  | .error => false
  | .function params res => areCanonical params && isCanonical res
  | .nilable inner => isCanonical inner && !inner.isNilable && !inner.isUnknown
  | .int | .float | .bool | .string | .nil | .unknown | .any | .struct _ | .trait _ => true

/-- Whether all types of a list are canonical. -/
def areCanonical : List Ty → Bool
  | [] => true
  | ty :: rest => isCanonical ty && areCanonical rest

end

/-- Whether a type mentions no problem, and only adds `nil` to known types that lack it. -/
abbrev Canonical (ty : Ty) : Prop := ty.isCanonical = true

/-- Whether a type is canonical and not unknown by itself. -/
abbrev Determined (ty : Ty) : Prop := ty.Canonical ∧ ty ≠ .unknown

theorem areCanonical_iff {types : List Ty} :
    areCanonical types = true ↔ ∀ ty ∈ types, ty.Canonical := by
  induction types with
  | nil => simp [areCanonical]
  | cons ty rest ih => simp [areCanonical, ih]

theorem canonical_function {params : List Ty} {res : Ty} :
    (Ty.function params res).Canonical ↔ (∀ ty ∈ params, ty.Canonical) ∧ res.Canonical := by
  rw [Canonical, isCanonical, Bool.and_eq_true, areCanonical_iff]

/-- A function type is determined as soon as it is canonical. -/
theorem determined_function {params : List Ty} {res : Ty} :
    (Ty.function params res).Determined ↔ (∀ ty ∈ params, ty.Canonical) ∧ res.Canonical := by
  rw [Determined, canonical_function, and_iff_left nofun]

theorem Canonical.determined_inner {inner : Ty} (h : (Ty.nilable inner).Canonical) :
    inner.Determined := by
  simp only [Canonical, isCanonical, Bool.and_eq_true, Bool.not_eq_true'] at h
  refine ⟨h.1.1, ?_⟩
  rintro rfl
  exact absurd h.2 (by decide)

theorem Canonical.ne_error {ty : Ty} (h : ty.Canonical) : ty.isError = false := by
  cases ty with
  | error => cases h
  | _ => rfl

theorem Canonical.determined {ty : Ty} (h : ty.Canonical) (known : ty.isUnknown = false) :
    ty.Determined := by
  refine ⟨h, ?_⟩
  rintro rfl
  cases known

/-- Adding `nil` to a determined type. -/
theorem Determined.orNil {ty : Ty} (h : ty.Determined) : ty.orNil.Determined := by
  obtain ⟨canonical, known⟩ := h
  cases ty with
  | nilable inner => exact ⟨canonical, nofun⟩
  | function params res =>
    exact ⟨by simpa [Ty.orNil, Canonical, isCanonical, isNilable, isUnknown] using canonical, nofun⟩
  | unknown => exact absurd rfl known
  | error => cases canonical
  | _ => exact ⟨rfl, nofun⟩

/-- What the arguments of a function of a canonical type flow into. -/
theorem Canonical.params {ty : Ty} (h : ty.Canonical) : ∀ param ∈ ty.params, param.Canonical := by
  cases ty with
  | function params res => exact (canonical_function.mp h).1
  | nilable inner =>
    intro param mem
    obtain rfl := List.mem_singleton.mp mem
    exact h.determined_inner.1
  | _ => nofun

theorem canonical_primitive {name : String} {ty : Ty} (found : Ty.primitive? name = some ty) :
    ty.Determined := by
  unfold Ty.primitive? at found
  split at found <;> cases found <;> exact ⟨rfl, nofun⟩

/-- Only whole numbers, with or without `nil`, are widened. -/
theorem Canonical.of_widening {conforms : String → String → Bool} {src target : Ty}
    (canonical : src.Canonical) (h : Ty.coerce? conforms src target = some .widening) :
    src = .int ∨ src = .nilable .int := by
  fun_induction Ty.coerce? conforms src target with
  | case2 src inner _ ih =>
    -- `nil` is taken from both sides, which a canonical source has at most once
    cases src with
    | nilable inner =>
      obtain rfl | rfl := ih canonical.determined_inner.1 h
      · exact .inr rfl
      · cases canonical
    | _ => exact ih canonical h
  | case4 => exact .inl rfl
  | _ => cases h

end Ty

/-! ## Annotations -/

/-- Whether the type of an expression is noted and determined, and a value that is widened is a whole
number, with or without `nil`. -/
def Note.Annotated (note : Note) : Prop :=
  ∃ ty ∈ note.ty, ty.Determined ∧ (note.widen = true → ty = .int ∨ ty = .nilable .int)

/-- Whether checking has noted all that belongs to a node, the nodes below it aside. -/
def Node.Annotated : Node → Prop
  | .expr e => e.note.Annotated ∧ match e with
    | .is _ _ _ target => ∃ ty ∈ target, ty.Determined
    | _ => True
  | .stmt (.varDecl _ _ _ _ resolved) => ∃ ty ∈ resolved, ty.Canonical
  | .stmt (.function decl) =>
    match decl.signature with
    | some (.function params res) => (∀ ty ∈ params, ty.Canonical) ∧ res.Determined
    | _ => False
  | _ => True

/-- The body of the function at a node, anonymous or not, with the type noted for the function. -/
def Node.function? : Node → Option (Option Ty × Block Stmt)
  | .stmt (.function decl) => some (decl.signature, decl.body)
  | .expr (.closure note _ _ body _) => some (note.ty, body)
  | _ => none

/-- Whether control never falls off the end of a body that is to give a result, unless `nil` will do. -/
def Block.Answers (body : Block Stmt) (res : Ty) : Prop :=
  res.isNilable = true ∨ anyTerminates body.statements = true

/-- Whether the function at a node, if there is one, has the type of a function, and a body that gives a
result of that type. -/
def Node.Returns (node : Node) : Prop :=
  match node.function? with
  | some (ty, body) => ∃ params res, ty = some (.function params res) ∧ body.Answers res
  | none => True

/-- What a check without an error makes of a node, the nodes below it aside. -/
structure Node.Checked (node : Node) : Prop where
  annotated : node.Annotated
  returns : node.Returns

/-- Whether an expression is as a check without an error leaves it. -/
abbrev Expr.Checked (e : Expr) : Prop := e.Each Node.Checked

/-- Whether a statement is as a check without an error leaves it. -/
abbrev Stmt.Checked (s : Stmt) : Prop := s.Each Node.Checked

namespace Note

/-- A note as the parser leaves it, with a type. -/
theorem Plain.annotated {note : Note} (plain : note.Plain) {ty : Ty} (determined : ty.Determined) :
    Annotated { note with ty := some ty } :=
  ⟨ty, rfl, determined, fun widened => absurd (plain.2.symm.trans widened) (by decide)⟩

end Note

namespace Expr.Checked

variable {e : Expr}

theorem ty_eq (h : e.Checked) : e.ty = some e.checkedTy := by
  obtain ⟨ty, noted, -⟩ := h.own.annotated.1
  change e.ty = some ty at noted
  rw [checkedTy, noted, Option.getD_some]

theorem determined (h : e.Checked) : e.checkedTy.Determined := by
  obtain ⟨ty, noted, determined, -⟩ := h.own.annotated.1
  change e.ty = some ty at noted
  rwa [checkedTy, noted, Option.getD_some]

/-- A value is widened only if it may be a whole number. -/
theorem withWiden (h : e.Checked) {widen : Bool}
    (whole : widen = true → e.checkedTy = .int ∨ e.checkedTy = .nilable .int) :
    (e.withWiden widen).Checked := by
  refine Each.withNote h ⟨⟨?_, ?_⟩, ?_⟩
  · rw [note_withNote]
    exact ⟨e.checkedTy, h.ty_eq, h.determined, whole⟩
  · have own := h.own.annotated.2
    cases e <;> exact own
  · have own := h.own.returns
    cases e <;> exact own

end Expr.Checked

/-! ## Trees that were checked -/

/-- Whether an expression is another one as a check without an error leaves it. -/
structure Expr.Completes (res e : Expr) : Prop where
  checked : res.Checked
  bare : res.bare = e

/-- Whether a statement is another one as a check without an error leaves it. -/
structure Stmt.Completes (res s : Stmt) : Prop where
  checked : res.Checked
  bare : res.bare = s

/-- Whether statements are others as a check without an error leaves them. -/
structure Stmt.AllComplete (results stmts : List Stmt) : Prop where
  checked : Stmt.EachOf Node.Checked results
  bare : Stmt.bareList results = stmts

theorem Expr.Completes.determined {res e : Expr} (h : res.Completes e) : res.checkedTy.Determined :=
  h.checked.determined

/-- The same expression, whose value is widened only if it may be a whole number. -/
theorem Expr.Completes.withWiden {res e : Expr} (h : res.Completes e) {widen : Bool}
    (whole : widen = true → res.checkedTy = .int ∨ res.checkedTy = .nilable .int) :
    (res.withWiden widen).Completes e := by
  refine ⟨h.checked.withWiden whole, Eq.trans ?_ h.bare⟩
  exact bare_withNote rfl

theorem Stmt.Completes.body {res body : Block Stmt} (h : (Stmt.block res).Completes (.block body)) :
    res.bare = body :=
  Stmt.block.inj h.bare

/-- A value that may be missing. -/
theorem Expr.completes_option {res value : Option Expr} (h : Option.Rel Completes res value) :
    (∀ e ∈ res, e.Checked) ∧ res.map bare = value := by
  cases h with
  | none => exact ⟨nofun, rfl⟩
  | some completes => exact ⟨by simpa using completes.checked, congrArg some completes.bare⟩

/-- A statement that may be missing. -/
theorem Stmt.completes_option {res alt : Option Stmt} (h : Option.Rel Completes res alt) :
    (∀ s ∈ res, s.Checked) ∧ res.map bare = alt := by
  cases h with
  | none => exact ⟨nofun, rfl⟩
  | some completes => exact ⟨by simpa using completes.checked, congrArg some completes.bare⟩

/-- Statements are completed one by one. -/
theorem Stmt.allComplete_iff {results stmts : List Stmt} :
    AllComplete results stmts ↔ List.Forall₂ Completes results stmts := by
  constructor
  · rintro ⟨checked, rfl⟩
    rw [bareList_eq, List.forall₂_map_right_iff, List.forall₂_same]
    exact fun res mem => ⟨eachOf_iff.mp checked res mem, rfl⟩
  · intro each
    induction each with
    | nil => exact ⟨nofun, rfl⟩
    | cons first _ ih =>
      refine ⟨eachOf_iff.mpr (List.forall_mem_cons.mpr ⟨first.checked, eachOf_iff.mp ih.checked⟩), ?_⟩
      rw [bareList, first.bare, ih.bare]

end FlowScript
