import FlowScript.Proofs.ReadingLogic
/-!
# Reading written types

A written type is read as the type that was written, and so is a written parameter list, if as many
levels are left as the type nests.  A question mark or an arrow must not follow a type, since they would
belong to it.

Main statements: `Level.ReadsType.typeBody`, `Level.ReadsType.params`.
-/

namespace FlowScript

open Parse

/-- Whether a type can end before tokens of these kinds. -/
def EndsType (kinds : List TokenKind) : Prop :=
  nextKind kinds ≠ .question ∧ nextKind kinds ≠ .arrow

/-- Whether a level reads a written type as that type. -/
def Level.ReadsType (level : Level) (type : TypeExpr) : Prop :=
  Reads level.type type.written.words EndsType fun found => found.unplaced = type.unplaced

theorem TypeExpr.writtenList_eq (types : List TypeExpr) :
    TypeExpr.writtenList types = types.map fun type => type.written.inner := by
  induction types with
  | nil => rfl
  | cons type rest ih => rw [TypeExpr.writtenList, ih, List.map_cons]

theorem TypeExpr.unplacedList_eq (types : List TypeExpr) :
    TypeExpr.unplacedList types = types.map TypeExpr.unplaced := by
  induction types with
  | nil => rfl
  | cons type rest ih => rw [TypeExpr.unplacedList, ih, List.map_cons]

/-- A function type, but for the question mark after it. -/
def TypeExpr.writtenFunction (params : List TypeExpr) (res : Option TypeExpr) : Written :=
  .mark .kwFn ++ .mark .leftParen ++ .commas (params.map fun type => type.written.inner) ++
    .mark .rightParen ++ writtenType .arrow res

theorem TypeExpr.written_function (pos : Position) (params : List TypeExpr)
    (res : Option TypeExpr) (nilable : Bool) :
    (TypeExpr.function pos params res nilable).written =
      (writtenFunction params res).grouped nilable ++ written.question nilable := by
  cases res <;> simp only [written, writtenFunction, writtenType, writtenList_eq]

theorem TypeExpr.unplaced_function (pos : Position) (params : List TypeExpr)
    (res : Option TypeExpr) (nilable : Bool) :
    (TypeExpr.function pos params res nilable).unplaced =
      .function default (params.map unplaced) (res.map unplaced) nilable := by
  cases res <;> simp only [unplaced, unplacedList_eq, Option.map]

theorem TypeExpr.unplaced_orNil (type : TypeExpr) : type.orNil.unplaced = type.unplaced.orNil := by
  cases type with
  | named pos name nilable => simp only [unplaced, orNil]
  | function pos params res nilable => simp only [orNil, unplaced_function]

/-- Lists are the same without positions if their members are, one by one. -/
theorem map_unplaced_eq {α : Type} {unplaced : α → α} {sources found : List α}
    (same : List.Forall₂ (fun src value => unplaced value = unplaced src) sources found) :
    found.map unplaced = sources.map unplaced := by
  induction same with
  | nil => rfl
  | cons first _ ih => rw [List.map_cons, List.map_cons, first, ih]

/-- A type starts with a name, `nil`, `fn` or a parenthesis. -/
theorem TypeExpr.starts (type : TypeExpr) (kinds : List TokenKind) :
    nextKind (type.written.words.map Word.kind ++ kinds) ∈
      [TokenKind.identifier, .kwNil, .kwFn, .leftParen] := by
  cases type with
  | named pos name nilable =>
    simp only [written, nameWord]
    split <;> simp [Word.kind]
  | function pos params res nilable =>
    rw [written_function]
    cases nilable <;>
      simp [writtenFunction, Written.grouped, Written.between, Word.kind]

namespace Level

variable {level : Level}

/-- The type of a result, after an arrow. -/
theorem ReadsType.resultType {res : Option TypeExpr}
    (reads : ∀ type ∈ res, level.ReadsType type) :
    Reads level.resultType (writtenType .arrow res).words EndsType
      fun found => found.map TypeExpr.unplaced = res.map TypeExpr.unplaced := by
  cases res with
  | none => exact .acceptNo (fun _ ends => ends.2) (.pure rfl)
  | some type =>
    refine .acceptYes (by decide) ?_
    exact (reads type rfl).map fun found same => congrArg some same

/-- A type after a colon, if there is one. -/
theorem ReadsType.annotation {written : Option TypeExpr} {follow : List TokenKind → Prop}
    (reads : ∀ type ∈ written, level.ReadsType type)
    (ends : ∀ kinds, follow kinds → EndsType kinds ∧ nextKind kinds ≠ .colon) :
    Reads level.annotation (writtenType .colon written).words follow
      fun found => found.map TypeExpr.unplaced = written.map TypeExpr.unplaced := by
  cases written with
  | none => exact .acceptNo (fun kinds holds => (ends kinds holds).2) (.pure rfl)
  | some type =>
    refine .acceptYes (by decide) ?_
    have read := (reads type rfl).before fun kinds holds => (ends kinds holds).1
    exact read.map fun found same => congrArg some same

/-- The types of a list before a closing parenthesis. -/
theorem ReadsType.listed {types : List TypeExpr} (reads : ∀ type ∈ types, level.ReadsType type) :
    Reads (Parse.listed level.type)
      (Written.commas (types.map fun type => type.written.inner)).words
      (fun kinds => nextKind kinds = .rightParen)
      (List.Forall₂ (fun type found => found.unplaced = type.unplaced) types) := by
  refine .listed reads (fun type _ kinds closing => ?_) (fun _ => ⟨by simp, by simp⟩)
    fun _ => ⟨by simp, by simp⟩
  have starts := type.starts kinds
  rw [Written.words_inner] at closing
  rw [closing] at starts
  simp at starts

/-- The parts of a function type nest less than it. -/
theorem ReadsType.ofFunction {depth stack : Nat} {params : List TypeExpr} {res : Option TypeExpr}
    (nested : ∀ type : TypeExpr, type.written.inner.Fits depth stack → level.ReadsType type)
    (enough : (TypeExpr.writtenFunction params res).Fits depth stack) :
    (∀ type ∈ params, level.ReadsType type) ∧ ∀ type ∈ res, level.ReadsType type := by
  simp only [TypeExpr.writtenFunction, Written.fits_append,
    Written.fits_commas] at enough
  obtain ⟨⟨⟨-, inParams⟩, -⟩, inResult⟩ := enough
  constructor
  · intro type mem
    exact nested type (inParams _ (List.mem_map_of_mem mem))
  · rintro type rfl
    simp only [writtenType, Written.fits_append] at inResult
    exact nested type inResult.2

/-- A function type, but for the question mark after it. -/
theorem ReadsType.plainFunction {params : List TypeExpr} {res : Option TypeExpr}
    (readsParams : ∀ type ∈ params, level.ReadsType type)
    (readsResult : ∀ type ∈ res, level.ReadsType type) :
    Reads level.plainType (TypeExpr.writtenFunction params res).words EndsType
      fun found => found.unplaced =
        .function default (params.map TypeExpr.unplaced) (res.map TypeExpr.unplaced) false := by
  rw [Level.plainType]
  simp only [TypeExpr.writtenFunction, Written.words_append, Written.words_mark, List.append_assoc,
    List.cons_append, List.nil_append]
  refine .peek fun token spelled => ?_
  simp only [spelled.kind_eq, Word.kind]
  refine .advance (by decide) fun _ _ => .expectMark (by decide) fun _ => ?_
  refine (ReadsType.listed readsParams).bind (fun found same => ?_) ?_
  · refine .expectMark (by decide) fun _ => ?_
    refine (ReadsType.resultType readsResult).bindLast (fun final sameFinal => .pure ?_) fun _ => id
    rw [TypeExpr.unplaced_function, map_unplaced_eq same, sameFinal]
  · exact fun _ _ => rfl

/-- A function type in parentheses. -/
theorem ReadsType.parenthesized {pos : Position} {params : List TypeExpr}
    {res : Option TypeExpr} (inner : level.ReadsType (.function pos params res false)) :
    Reads level.plainType
      ((TypeExpr.writtenFunction params res).between .leftParen .rightParen).words Anywhere
      fun found => found.unplaced =
        .function default (params.map TypeExpr.unplaced) (res.map TypeExpr.unplaced) false := by
  rw [Level.ReadsType, TypeExpr.written_function, TypeExpr.unplaced_function] at inner
  simp only [Written.grouped, Bool.false_eq_true, if_false, TypeExpr.written.question,
    Written.words_append, Written.words_empty, List.append_nil] at inner
  rw [Level.plainType, Written.words_between]
  refine .peek fun token spelled => ?_
  simp only [spelled.kind_eq, Word.kind]
  refine .advance (by decide) fun _ _ => ?_
  refine inner.bind (fun found same => .expectMark (by decide) fun _ => .pure same) ?_
  exact fun _ _ => ⟨by simp [Word.kind], by simp [Word.kind]⟩

/-- The question marks after a type. -/
theorem readsQuestions (plain : TypeExpr) (nilable : Bool) :
    Reads (Parse.iterate nextQuestion plain) (TypeExpr.written.question nilable).words EndsType
      fun found => found.unplaced = if nilable then plain.unplaced.orNil else plain.unplaced := by
  have none (type : TypeExpr) : Reads (nextQuestion type) [] EndsType (· = none) :=
    .acceptNo (fun _ ends => ends.1) (.pure rfl)
  refine Loops.iterate ?_
  cases nilable with
  | false => exact .stop (none plain) rfl
  | true =>
    have one : Reads (nextQuestion plain) [.mark .question] EndsType fun found =>
        ∃ type, found = some type ∧ type = plain.orNil :=
      .acceptYes (by decide) (.pure ⟨_, rfl, rfl⟩)
    refine Loops.next one (by simp) (fun type same => ?_) fun _ => id
    exact .stop (none type) (same ▸ plain.unplaced_orNil)

end Level

/-! ## All types -/

/-- The name of a type. -/
theorem Level.readsTypeName (level : Level) (name : String) :
    Reads level.plainType [TypeExpr.nameWord name] Anywhere
      fun found => found.unplaced = .named default name false := by
  rw [Level.plainType]
  refine .peek fun token spelled => ?_
  have kind : token.kind = .identifier ∨ token.kind = .kwNil := by
    rw [spelled.kind_eq, TypeExpr.nameWord]
    split
    · exact .inr rfl
    · exact .inl rfl
  have lexeme : token.lexeme = name := by
    unfold TypeExpr.nameWord at spelled
    split at spelled
    · rename_i isNil
      exact (spelled.2 "nil" (by decide)).trans isNil.symm
    · exact spelled.2
  have notEnd : (TypeExpr.nameWord name).kind ≠ .endOfInput := by
    rw [← spelled.kind_eq]
    rcases kind with kind | kind <;> simp [kind]
  rcases kind with kind | kind <;>
    · simp only [kind]
      exact .advance notEnd fun _ _ => .pure (by rw [lexeme, TypeExpr.unplaced])

/-- A written type is read as the type that was written, where types that nest less are. -/
theorem Level.ReadsType.typeBody {level : Level} {depth stack : Nat}
    (nested : ∀ type : TypeExpr, type.written.inner.Fits depth stack → level.ReadsType type)
    (type : TypeExpr) (enough : type.written.Fits depth stack) :
    Reads level.typeBody type.written.words EndsType fun found => found.unplaced = type.unplaced := by
  rw [Level.typeBody]
  cases type with
  | named pos name nilable =>
    simp only [TypeExpr.written, Written.words_append, Written.words_word]
    refine (level.readsTypeName name).bind (fun plain same => ?_) fun _ _ => trivial
    refine (readsQuestions plain nilable).weaken fun found eq => ?_
    rw [eq, same, TypeExpr.unplaced]
    cases nilable <;> rfl
  | function pos params res nilable =>
    rw [TypeExpr.written_function] at enough ⊢
    rw [TypeExpr.unplaced_function]
    cases nilable with
    | false =>
      simp only [Written.grouped, Bool.false_eq_true, if_false, Written.fits_append]
        at enough
      obtain ⟨readsParams, readsResult⟩ := ReadsType.ofFunction nested enough.1
      refine (ReadsType.plainFunction readsParams readsResult).bind (fun plain same => ?_) fun _ => id
      refine (readsQuestions plain false).weaken fun found eq => ?_
      rw [eq, if_neg (by simp), same]
    | true =>
      simp only [Written.grouped, if_true, Written.fits_append, Written.fits_between] at enough
      have inner : level.ReadsType (.function pos params res false) := by
        refine nested _ ?_
        rw [TypeExpr.written_function]
        simpa [Written.grouped, TypeExpr.written.question] using enough.1
      refine (ReadsType.parenthesized inner).bind (fun plain same => ?_) fun _ _ => trivial
      refine (readsQuestions plain true).weaken fun found eq => ?_
      rw [eq, if_pos rfl, same]
      rfl

/-! ## Parameters -/

/-- A written parameter list is read as that list. -/
theorem Level.ReadsType.params {level : Level} {params : List Param}
    (reads : ∀ param ∈ params, level.ReadsType param.written) :
    Reads level.params (writtenParams params).words Anywhere
      fun found => found.map Param.unplaced = params.map Param.unplaced := by
  have each : ∀ param ∈ params, Reads level.param
      (Written.word (.name param.name) ++ .mark .colon ++ param.written.written.inner).words EndsType
      fun found => found.unplaced = param.unplaced := by
    intro param mem
    refine .expectName fun token lexeme => .expectMark (by decide) fun _ => ?_
    refine (reads param mem).bindLast (fun found same => .pure ?_) fun _ => id
    rw [Param.unplaced, Param.unplaced, lexeme, same]
  rw [Level.params, writtenParams, Written.words_append, Written.words_append, List.append_assoc]
  refine .expectMark (by decide) fun _ => ?_
  refine (Reads.listed each ?_ ?_ ?_).bind (fun found same => ?_) fun _ _ => rfl
  · exact fun param _ kinds => by simp [Word.kind]
  · exact fun _ => ⟨by simp, by simp⟩
  · exact fun _ => ⟨by simp, by simp⟩
  · exact .expectMark (by decide) fun _ => .pure (map_unplaced_eq same)

end FlowScript
