import FlowScript.Proofs.ReadingExpressions
/-!
# Reading written declarations

Functions, structs and traits are read as they were written.  The members of a struct or trait end with
a terminator each, which is taken by the round that reads the next member: `Parse.Loops.separated`.

Main statements: `Level.ReadsNested.functionDecl`, `Level.ReadsNested.structDecl` and
`Level.ReadsNested.traitDecl`.
-/

namespace FlowScript

open Parse

/-! ## Members and what separates them -/

/-- Whether all words stand between members. -/
def Separators (words : List Word) : Prop :=
  ∀ word ∈ words, word.kind.separatesMembers = true

theorem Separators.nil : Separators [] := by simp [Separators]

theorem Separators.terminator : Separators [.mark .terminator] := by
  simp [Separators, Word.kind, TokenKind.separatesMembers]

/-- Members that end with a terminator each. A round of the loop takes the separators in front of a
member and leaves the one behind it, so `invariant` says what has been read up to the member. -/
theorem Parse.Loops.separated {α ι : Type} {step : α → Parse (Option α)} {write : ι → Written}
    {sources : List ι} {more : List Word} {follow : List TokenKind → Prop} {res : α → Prop}
    (invariant : List ι → α → Prop) (known : List ι)
    (each : ∀ known src, src ∈ sources → ∀ value lead, invariant known value →
      Separators lead → Reads (step value) (lead ++ (write src).words)
        (fun kinds => nextKind kinds = .terminator)
        fun found => ∃ next, found = some next ∧ invariant (known ++ [src]) next)
    (taking : ∀ src ∈ sources, (write src).words ≠ [])
    {value : α} (start : invariant known value)
    (last : ∀ value lead, invariant (known ++ sources) value → Separators lead →
      Loops step value (lead ++ more) follow res)
    {lead : List Word} (separators : Separators lead) :
    Loops step value (lead ++ ((Written.ended (sources.map write)).words ++ more)) follow res := by
  induction sources generalizing known value lead with
  | nil =>
    rw [List.append_nil] at last
    exact last value lead start separators
  | cons src rest ih =>
    have words : lead ++ ((Written.ended ((src :: rest).map write)).words ++ more) =
        (lead ++ (write src).words) ++
          ([.mark .terminator] ++ ((Written.ended (rest.map write)).words ++ more)) := by
      simp [Written.ended]
    rw [words]
    refine .next (each known src (by simp) value lead start separators) ?_ (fun next found => ?_)
      fun _ _ => rfl
    · exact List.append_ne_nil_of_right_ne_nil _ (taking src (by simp))
    · refine ih (known ++ [src]) (fun known other mem => each known other (by simp [mem]))
        (fun other mem => taking other (by simp [mem])) found ?_ .terminator
      rwa [List.append_assoc, List.singleton_append]

/-! ## Functions -/

/-- A written function. -/
def FunctionDecl.written (decl : FunctionDecl Stmt) : Written :=
  writtenFunction decl.name decl.params decl.result (Stmt.writtenList decl.body.statements)

theorem Stmt.writtenMethods_eq (methods : List (FunctionDecl Stmt)) :
    Stmt.writtenMethods methods = methods.map FunctionDecl.written := by
  induction methods with
  | nil => rfl
  | cons method rest ih => rw [Stmt.writtenMethods, ih, List.map_cons, FunctionDecl.written]

theorem Stmt.unplacedMethods_append (first second : List (FunctionDecl Stmt)) :
    Stmt.unplacedMethods (first ++ second) =
      Stmt.unplacedMethods first ++ Stmt.unplacedMethods second := by
  induction first with
  | nil => rfl
  | cons method rest ih => simp only [List.cons_append, Stmt.unplacedMethods, ih]

theorem Stmt.unplacedMethods_singleton {decl found : FunctionDecl Stmt}
    (same : (Stmt.function decl).Same (.function found)) :
    Stmt.unplacedMethods [found] = Stmt.unplacedMethods [decl] := by
  simp only [Stmt.Same, Stmt.unplaced, Stmt.function.injEq] at same
  simp only [Stmt.unplacedMethods, same]

namespace Level

variable {level : Level} {depth stack : Nat}

namespace ReadsNested

/-- A function with its name. -/
theorem functionDecl (nested : level.ReadsNested depth stack) {decl : FunctionDecl Stmt}
    (plain : (Stmt.function decl).Plain) (enough : decl.written.Fits depth stack) :
    Reads level.functionDecl decl.written.words Anywhere
      fun found => (Stmt.function decl).Same (.function found) := by
  obtain ⟨own, block⟩ := Stmt.each_function.mp plain
  have plainBody := (Stmt.each_block.mp block).2
  simp only [FunctionDecl.written, writtenFunction, Written.fits_append] at enough
  obtain ⟨⟨⟨-, inParams⟩, inResult⟩, inBody⟩ := enough
  simp only [FunctionDecl.written, writtenFunction, Written.words_append, List.append_assoc]
  refine .advance (by decide) fun _ _ => .expectName fun name lexeme => ?_
  refine (nested.params inParams).bind (fun params sameParams => ?_) fun _ _ => trivial
  refine (ReadsType.resultType (nested.typeAfter inResult)).bind (fun res sameResult => ?_) ?_
  · refine (nested.block _ decl.body.statements plainBody inBody).bindLast
      (fun body sameBody => .pure ?_) fun _ _ => trivial
    simp only [Stmt.Same, Stmt.unplaced, lexeme, sameParams, sameResult, sameBody, own.1, own.2]
  · intro kinds _
    simp [EndsType, Written.block, Word.kind]

end ReadsNested

/-! ## Structs -/

/-- The members of a struct end before a closing brace. -/
theorem nextMember_stops (level : Level) (members : Members) {lead : List Word}
    (separators : Separators lead) :
    Reads (level.nextMember members) (lead ++ []) (fun kinds => nextKind kinds = .rightBrace)
      (· = none) := by
  refine (Reads.skipWhile separators).bind (fun _ _ => ?_) fun kinds ends => ?_
  · refine .peekEnd fun token kinds ends seen => ?_
    simp only [seen, ends]
    exact .pure rfl
  · simp [ends, TokenKind.separatesMembers]

namespace ReadsNested

variable (nested : level.ReadsNested depth stack)

include nested

/-- A field. -/
theorem fieldDecl {field : FieldDecl} (enough : (writtenField field).Fits depth stack) :
    Reads level.fieldDecl (writtenField field).words (fun kinds => nextKind kinds = .terminator)
      fun found => found.unplaced = field.unplaced := by
  rw [writtenField, Written.fits_append] at enough
  refine .expectName fun name lexeme => ?_
  refine (ReadsType.annotation (nested.typeAfter enough.2) fun kinds ends => ?_).bindLast
    (fun written same => .pure ?_) fun _ => id
  · simp [EndsType, ends]
  · simp only [FieldDecl.unplaced, lexeme, same]

omit nested in
/-- The traits that a struct lists. -/
theorem traitRefs (traits : List TraitRef) :
    Reads Level.traitRefs (writtenTraits traits).words (fun kinds => nextKind kinds = .leftBrace)
      fun found => found.map TraitRef.unplaced = traits.map TraitRef.unplaced := by
  have each (ref : TraitRef) : Reads traitRef (Written.word (.name ref.name)).words Anywhere
      fun found => found.unplaced = ref.unplaced := by
    refine .expectName fun name lexeme => .pure ?_
    rw [TraitRef.unplaced, TraitRef.unplaced, lexeme]
  cases traits with
  | nil => exact .acceptNo (fun kinds ends => by simp [writtenTraits, ends]) (.pure rfl)
  | cons first rest =>
    refine .acceptYes (by decide) ?_
    refine (Reads.commaSeparated (fun ref _ => each ref) (fun _ => trivial) fun kinds ends => ?_).weaken
      fun found same => map_unplaced_eq same
    exact ⟨trivial, by simp [ends]⟩

/-- One more field. -/
theorem nextField {field : FieldDecl}
    (enough : (writtenField field).Fits depth stack) (members : Members) {lead : List Word}
    (separators : Separators lead) :
    Reads (level.nextMember members) (lead ++ (writtenField field).words)
      (fun kinds => nextKind kinds = .terminator)
      fun next => ∃ found, next = some { members with fields := members.fields.push found } ∧
        found.unplaced = field.unplaced := by
  refine (Reads.skipWhile separators).bind (fun _ _ => ?_) fun _ _ => rfl
  refine .peek fun token spelled => ?_
  simp only [spelled.kind_eq, Word.kind]
  refine .get fun cur => ?_
  refine ((nested.fieldDecl enough).recovering).bindLast ?_ fun _ => id
  rintro _ ⟨found, rfl, same⟩
  have ends : Reads Level.fieldEnd [] (fun kinds => nextKind kinds = .terminator) Anything := by
    refine .peekEnd fun token kinds ends seen => ?_
    rw [seen, ends]
    exact .pure trivial
  exact ends.recovering.bindLast (fun _ _ => .pure ⟨found, rfl, same⟩) fun _ => id

/-- One more method. -/
theorem nextMethod {decl : FunctionDecl Stmt}
    (plain : (Stmt.function decl).Plain) (enough : decl.written.Fits depth stack) (members : Members)
    {lead : List Word} (separators : Separators lead) :
    Reads (level.nextMember members) (lead ++ decl.written.words) Anywhere
      fun next => ∃ found, next = some { members with methods := members.methods.push found } ∧
        (Stmt.function decl).Same (.function found) := by
  refine (Reads.skipWhile separators).bind (fun _ _ => ?_) fun _ _ => rfl
  have reads := nested.functionDecl plain enough
  refine .peek fun token spelled => ?_
  simp only [spelled.kind_eq, Word.kind]
  refine reads.recovering.bindLast ?_ fun _ => id
  rintro _ ⟨found, rfl, same⟩
  exact .pure ⟨found, rfl, same⟩

/-- The methods of a struct, up to the closing brace. -/
theorem methods {methods : List (FunctionDecl Stmt)}
    (plain : ∀ method ∈ methods, (Stmt.function method).Plain)
    (enough : (Written.ended (methods.map FunctionDecl.written)).Fits depth stack) (members : Members)
    {lead : List Word} (separators : Separators lead) :
    Loops level.nextMember members (lead ++ (Written.ended (methods.map FunctionDecl.written)).words)
      (fun kinds => nextKind kinds = .rightBrace)
      fun found => found.fields = members.fields ∧ ∃ added,
        found.methods.toList = members.methods.toList ++ added ∧
          Stmt.unplacedMethods added = Stmt.unplacedMethods methods := by
  rw [Written.fits_ended, List.forall_mem_map] at enough
  rw [← List.append_nil (Written.ended _).words]
  refine .separated (fun known found => found.fields = members.fields ∧
    ∃ added, found.methods.toList = members.methods.toList ++ added ∧
      Stmt.unplacedMethods added = Stmt.unplacedMethods known) [] ?_ ?_ ?_ ?_ separators
  · rintro known decl mem found lead ⟨fields, added, methods, same⟩ separators
    refine ((nested.nextMethod (plain decl mem) (enough decl mem) found separators).weaken ?_).before
      fun _ _ => trivial
    rintro _ ⟨method, rfl, sameMethod⟩
    refine ⟨_, rfl, fields, added ++ [method], ?_, ?_⟩
    · rw [Array.toList_push, methods, List.append_assoc]
    · rw [Stmt.unplacedMethods_append, Stmt.unplacedMethods_append, same,
        Stmt.unplacedMethods_singleton sameMethod]
  · intro decl _
    simp [FunctionDecl.written, writtenFunction]
  · exact ⟨rfl, [], by simp, rfl⟩
  · exact fun found lead holds separators => .stop (level.nextMember_stops found separators) holds

/-- The members of a struct. -/
theorem members {fields : List FieldDecl}
    {methods : List (FunctionDecl Stmt)} (plain : ∀ method ∈ methods, (Stmt.function method).Plain)
    (enoughFields : (Written.ended (fields.map writtenField)).Fits depth stack)
    (enoughMethods : (Written.ended (methods.map FunctionDecl.written)).Fits depth stack) :
    Loops level.nextMember {}
      ((Written.ended (fields.map writtenField)).words ++
        (Written.ended (methods.map FunctionDecl.written)).words)
      (fun kinds => nextKind kinds = .rightBrace)
      fun found => found.fields.toList.map FieldDecl.unplaced = fields.map FieldDecl.unplaced ∧
        Stmt.unplacedMethods found.methods.toList = Stmt.unplacedMethods methods := by
  rw [Written.fits_ended, List.forall_mem_map] at enoughFields
  change Loops _ _ ([] ++ _) _ _
  refine .separated (fun known found => found.methods = #[] ∧
    found.fields.toList.map FieldDecl.unplaced = known.map FieldDecl.unplaced) [] ?_ ?_ ?_ ?_ .nil
  · rintro known field mem found lead ⟨methods, same⟩ separators
    refine (nested.nextField (enoughFields field mem) found separators).weaken ?_
    rintro _ ⟨next, rfl, sameField⟩
    exact ⟨_, rfl, methods, by simp [same, sameField]⟩
  · intro field _
    simp [writtenField]
  · exact ⟨rfl, rfl⟩
  · rintro found lead ⟨noMethods, same⟩ separators
    refine (nested.methods plain enoughMethods found separators).weaken ?_
    rintro last ⟨sameFields, added, methods, sameMethods⟩
    rw [noMethods] at methods
    exact ⟨sameFields ▸ same, by rw [methods]; exact sameMethods⟩

/-- A struct. -/
theorem structDecl {decl : StructDecl Stmt}
    (plain : (Stmt.struct decl).Plain) (enough : (Stmt.struct decl).written.Fits depth stack) :
    Reads level.structDecl (Stmt.struct decl).written.words Anywhere
      fun found => (Stmt.struct decl).Same (.struct found) := by
  have plainMethods := (Stmt.each_struct.mp plain).2.2
  simp only [Stmt.written, Stmt.writtenMethods_eq, Written.fits_append] at enough
  obtain ⟨⟨⟨-, inFields⟩, inMethods⟩, -⟩ := enough
  simp only [Stmt.written, Stmt.writtenMethods_eq, Written.words_append, List.append_assoc]
  refine .advance (by decide) fun _ _ => .expectName fun name lexeme => ?_
  refine (traitRefs decl.traits).bind (fun traits sameTraits => ?_) fun _ _ => rfl
  refine .expectMark (by decide) fun _ => ?_
  have loop := (nested.members plainMethods inFields inMethods).iterate
  rw [← List.append_assoc]
  refine loop.bind (fun found same => ?_) fun _ _ => rfl
  refine .expectMark (by decide) fun _ => .pure ?_
  simp only [Stmt.Same, Stmt.unplaced, lexeme, sameTraits, same]

/-! ## Traits -/

/-- A method that a trait requires. -/
theorem methodSig {method : MethodSig} (enough : (writtenMethodSig method).Fits depth stack) :
    Reads level.methodSig (writtenMethodSig method).words (fun kinds => nextKind kinds = .terminator)
      fun found => found.unplaced = method.unplaced := by
  simp only [writtenMethodSig, Written.fits_append] at enough
  obtain ⟨⟨-, inParams⟩, inResult⟩ := enough
  simp only [writtenMethodSig, Written.words_append, List.append_assoc]
  refine .expectMark (by decide) fun _ => .expectName fun name lexeme => ?_
  refine (nested.params inParams).bind (fun params sameParams => ?_) fun _ _ => trivial
  refine (ReadsType.resultType (nested.typeAfter inResult)).bindLast (fun res sameResult => ?_) ?_
  · refine .peekEnd fun token kinds ends seen => ?_
    rw [if_neg (by simp [seen, ends])]
    refine .pure ?_
    simp only [MethodSig.unplaced, lexeme, sameParams, sameResult]
  · intro kinds ends
    simp [EndsType, ends]

/-- The methods that a trait requires. -/
theorem methodSigs {methods : List MethodSig}
    (enough : (Written.ended (methods.map writtenMethodSig)).Fits depth stack) :
    Loops level.nextMethodSig #[] (Written.ended (methods.map writtenMethodSig)).words
      (fun kinds => nextKind kinds = .rightBrace)
      fun found => found.toList.map MethodSig.unplaced = methods.map MethodSig.unplaced := by
  rw [Written.fits_ended, List.forall_mem_map] at enough
  rw [← List.append_nil (Written.ended _).words]
  change Loops _ _ ([] ++ _) _ _
  refine .separated (fun known found =>
    found.toList.map MethodSig.unplaced = known.map MethodSig.unplaced) [] ?_ ?_ rfl ?_ .nil
  · intro known method mem found lead same separators
    refine (Reads.skipWhile separators).bind (fun _ _ => ?_) fun _ _ => rfl
    have reads := nested.methodSig (enough method mem)
    refine .peek fun token spelled => ?_
    simp only [spelled.kind_eq, Word.kind]
    refine reads.recovering.bindLast ?_ fun _ => id
    rintro _ ⟨next, rfl, sameMethod⟩
    exact .pure ⟨_, rfl, by simp [same, sameMethod]⟩
  · intro method _
    simp [writtenMethodSig]
  · intro found lead same separators
    refine .stop ((Reads.skipWhile separators).bind (fun _ _ => ?_) fun kinds ends => ?_) same
    · refine .peekEnd fun token kinds ends seen => ?_
      simp only [seen, ends]
      exact .pure rfl
    · simp [ends, TokenKind.separatesMembers]

/-- A trait. -/
theorem traitDecl {decl : TraitDecl} (enough : (Stmt.trait decl).written.Fits depth stack) :
    Reads level.traitDecl (Stmt.trait decl).written.words Anywhere
      fun found => (Stmt.trait decl).Same (.trait found) := by
  simp only [Stmt.written, Written.fits_append] at enough
  simp only [Stmt.written, Written.words_append, List.append_assoc]
  refine .advance (by decide) fun _ _ => .expectName fun name lexeme => ?_
  refine .expectMark (by decide) fun _ => ?_
  refine (nested.methodSigs enough.1.2).iterate.bind (fun found same => ?_) fun _ _ => rfl
  refine .expectMark (by decide) fun _ => .pure ?_
  simp only [Stmt.Same, Stmt.unplaced, TraitDecl.unplaced, lexeme, same]

end ReadsNested

end Level

end FlowScript
