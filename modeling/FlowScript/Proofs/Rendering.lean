import FlowScript.Syntax.Traversal
/-!
# Writing programs down

A tree is written down as a sequence of words, which are tokens without a place.  Each statement, field
and method of a trait is followed by a terminator, and parentheses stand exactly where a part binds
looser than its place asks for: around operands of a lower rank, around a member that is called as a
function rather than as a method, and around a function type that is made nilable.

`Written` holds the words together with how deep they nest, which is the levels of expressions, operands
of unary operators, blocks and types that are opened within them, and how high they stack up, which counts
the links of assignments and of chains of conditionals besides.  `Stmt.written` writes a statement, and
`Program.written` a program.

Positions are not written.  `Stmt.unplaced` takes them away from a tree, and `Program.Plain` says that a
tree is as the parser leaves it: nothing is noted in it, and alternatives are blocks or conditionals.
-/

namespace FlowScript

/-! ## Words -/

/-- A token as far as a program depends on it. -/
inductive Word where
  /-- An identifier. -/
  | name (text : String)
  /-- A number, a text, `true`, `false` or `nil`. -/
  | literal (value : Literal)
  /-- A keyword, an operator, a punctuation mark, or the end of a statement. -/
  | mark (kind : TokenKind)

/-- The kind of the tokens of a literal. -/
def Literal.kind : Literal → TokenKind
  | .nil => .kwNil
  | .bool true => .kwTrue
  | .bool false => .kwFalse
  | .int _ => .integer
  | .float _ => .float
  | .string _ => .string

/-- The kind of the tokens that stand for a word. -/
def Word.kind : Word → TokenKind
  | .name _ => .identifier
  | .literal value => value.kind
  | .mark kind => kind

/-- Whether a token stands for a word, wherever it stands. A mark is spelled as it has to be; a
terminator has no spelling. -/
def Token.Spells (token : Token) : Word → Prop
  | .name text => token.kind = .identifier ∧ token.lexeme = text
  | .literal value => token.kind = value.kind ∧ token.value = value
  | .mark kind => token.kind = kind ∧
      ∀ text, (text, kind) ∈ TokenKind.keywords ++ TokenKind.marks → token.lexeme = text

theorem Token.Spells.kind_eq {token : Token} {word : Word} (h : token.Spells word) :
    token.kind = word.kind := by
  cases word <;> exact h.1

/-- A token that stands for a word. -/
def Word.token : Word → Token
  | .name text => ⟨.identifier, text, .nil, default⟩
  | .literal value => ⟨value.kind, "", value, default⟩
  | .mark kind =>
    let spelling := (TokenKind.keywords ++ TokenKind.marks).find? fun entry => entry.2 = kind
    ⟨kind, (spelling.map Prod.fst).getD "", .nil, default⟩

/-- Words with what it takes to read them. -/
structure Written where
  words : List Word
  /-- How many levels are open at once. -/
  nesting : Nat
  /-- How many levels and links of chains are open at once. -/
  height : Nat

namespace Written

/-- Nothing written. -/
def empty : Written := ⟨[], 0, 0⟩

/-- A single word. -/
def word (word : Word) : Written := ⟨[word], 0, 0⟩

/-- A single mark. -/
def mark (kind : TokenKind) : Written := word (.mark kind)

/-- One part after another. -/
def append (left right : Written) : Written :=
  ⟨left.words ++ right.words, max left.nesting right.nesting, max left.height right.height⟩

instance : Append Written := ⟨append⟩

/-- A part that is one level further in. -/
def inner (part : Written) : Written :=
  { part with nesting := part.nesting + 1, height := part.height + 1 }

/-- A part that is one link further on. -/
def linked (part : Written) : Written := { part with height := part.height + 1 }

/-- A part between marks, one level further in. -/
def between (opening closing : TokenKind) (part : Written) : Written :=
  mark opening ++ part.inner ++ mark closing

/-- A part in parentheses if they are needed. -/
def grouped (needed : Bool) (part : Written) : Written :=
  if needed then part.between .leftParen .rightParen else part

/-- Parts with a mark after each. -/
def ended (parts : List Written) : Written :=
  parts.foldr (fun part rest => part ++ mark .terminator ++ rest) empty

/-- A block of statements. -/
def block (stmts : List Written) : Written := (ended stmts).between .leftBrace .rightBrace

/-- Parts with a comma before each. -/
def continued (parts : List Written) : Written :=
  parts.foldr (fun part rest => mark .comma ++ part ++ rest) empty

/-- Parts with commas between them. -/
def commas : List Written → Written
  | [] => empty
  | first :: rest => first ++ continued rest

@[simp] theorem words_empty : empty.words = [] := rfl

@[simp] theorem words_word (word : Word) : (Written.word word).words = [word] := rfl

@[simp] theorem words_mark (kind : TokenKind) : (mark kind).words = [.mark kind] := rfl

@[simp] theorem words_append (left right : Written) :
    (left ++ right).words = left.words ++ right.words := rfl

theorem append_assoc (left mid right : Written) :
    left ++ mid ++ right = left ++ (mid ++ right) := by
  change append (append left mid) right = append left (append mid right)
  simp only [append, List.append_assoc, Nat.max_assoc]

@[simp] theorem append_empty (part : Written) : part ++ empty = part := by
  change append part empty = part
  simp only [append, empty, List.append_nil, Nat.max_zero]

@[simp] theorem words_inner (part : Written) : part.inner.words = part.words := rfl

@[simp] theorem words_linked (part : Written) : part.linked.words = part.words := rfl

@[simp] theorem words_between (opening closing : TokenKind) (part : Written) :
    (part.between opening closing).words =
      .mark opening :: (part.words ++ [.mark closing]) := by
  simp [between]

/-- Whether a part nests and stacks up no further than it may. -/
def Fits (part : Written) (depth stack : Nat) : Prop := part.nesting ≤ depth ∧ part.height ≤ stack

section Fits

variable {depth stack : Nat} {part : Written} {parts : List Written}

@[simp] theorem fits_empty : empty.Fits depth stack := ⟨Nat.zero_le _, Nat.zero_le _⟩

@[simp] theorem fits_word {word : Word} : (Written.word word).Fits depth stack :=
  ⟨Nat.zero_le _, Nat.zero_le _⟩

@[simp] theorem fits_mark {kind : TokenKind} : (mark kind).Fits depth stack := fits_word

theorem fits_append {left right : Written} :
    (left ++ right).Fits depth stack ↔ left.Fits depth stack ∧ right.Fits depth stack := by
  change max _ _ ≤ _ ∧ max _ _ ≤ _ ↔ _
  rw [Nat.max_le, Nat.max_le]
  exact and_and_and_comm

theorem fits_continued : (continued parts).Fits depth stack ↔ ∀ part ∈ parts, part.Fits depth stack := by
  induction parts with
  | nil => simp [continued]
  | cons part rest ih =>
    simp only [continued] at ih
    simp [continued, fits_append, ih]

theorem fits_commas : (commas parts).Fits depth stack ↔ ∀ part ∈ parts, part.Fits depth stack := by
  cases parts with
  | nil => simp [commas]
  | cons first rest => simp [commas, fits_append, fits_continued]

theorem fits_ended : (ended parts).Fits depth stack ↔ ∀ part ∈ parts, part.Fits depth stack := by
  induction parts with
  | nil => simp [ended]
  | cons part rest ih =>
    simp only [ended] at ih
    simp [ended, fits_append, ih]

theorem fits_between {opening closing : TokenKind} :
    (part.between opening closing).Fits depth stack ↔ part.inner.Fits depth stack := by
  simp [between, fits_append]

theorem Fits.of_linked (h : part.linked.Fits depth stack) : part.Fits depth stack :=
  ⟨h.1, Nat.le_of_succ_le h.2⟩

end Fits

end Written

/-! ## Types -/

namespace TypeExpr

/-- The word of a type name; `nil` is a keyword. -/
def nameWord (name : String) : Word := if name = "nil" then .mark .kwNil else .name name

mutual

/-- A written type. A function type in front of a question mark stands in parentheses, since the
question mark would belong to its result. -/
def written : TypeExpr → Written
  | .named _ name nilable => .word (nameWord name) ++ question nilable
  | .function _ params res nilable =>
    let res := match res with
      | some res => .mark .arrow ++ res.written.inner
      | none => .empty
    Written.grouped nilable
      (.mark .kwFn ++ .mark .leftParen ++ .commas (writtenList params) ++ .mark .rightParen ++
        res) ++ question nilable
where
  /-- The question mark of a nilable type. -/
  question (nilable : Bool) : Written := if nilable then .mark .question else .empty

/-- Written types, each one level further in. -/
def writtenList : List TypeExpr → List Written
  | [] => []
  | type :: rest => type.written.inner :: writtenList rest

end

end TypeExpr

/-- A written parameter list. -/
def writtenParams (params : List Param) : Written :=
  .mark .leftParen ++
    .commas (params.map fun param =>
      .word (.name param.name) ++ .mark .colon ++ param.written.written.inner) ++
    .mark .rightParen

/-- A written type after a mark, if there is one. -/
def writtenType (mark : TokenKind) : Option TypeExpr → Written
  | some type => .mark mark ++ type.written.inner
  | none => .empty

/-- A written function with a name, of statements that are written already. -/
def writtenFunction (name : String) (params : List Param) (res : Option TypeExpr)
    (body : List Written) : Written :=
  .mark .kwFn ++ .word (.name name) ++ writtenParams params ++ writtenType .arrow res ++
    .block body

/-- The traits that a struct lists. -/
def writtenTraits : List TraitRef → Written
  | [] => .empty
  | traits => .mark .colon ++ .commas (traits.map fun ref => .word (.name ref.name))

/-- A written field. -/
def writtenField (field : FieldDecl) : Written :=
  .word (.name field.name) ++ writtenType .colon field.written

/-- A written method of a trait. -/
def writtenMethodSig (method : MethodSig) : Written :=
  .mark .kwFn ++ .word (.name method.name) ++ writtenParams method.params ++
    writtenType .arrow method.result

/-! ## Operators -/

/-- How tight an operator binds. The ranks are: 0 assignment, 1 `or`, 2 `and`, 3 equality,
4 comparison and type test, 5 sum, 6 product, 7 unary operators, 8 calls, members and `!`, and 9 what
needs no operator. -/
def BinaryOp.rank : BinaryOp → Nat
  | .eq | .ne => 3
  | .lt | .le | .gt | .ge => 4
  | .add | .sub => 5
  | .mul | .div | .mod => 6

/-- The token of an operator. -/
def BinaryOp.kind : BinaryOp → TokenKind
  | .add => .plus | .sub => .minus | .mul => .star | .div => .slash | .mod => .percent
  | .eq => .equalEqual | .ne => .notEqual
  | .lt => .less | .le => .lessEqual | .gt => .greater | .ge => .greaterEqual

/-- How tight a logical operator binds. -/
def LogicalOp.rank : LogicalOp → Nat
  | .or => 1
  | .and => 2

/-- The token of a logical operator. -/
def LogicalOp.kind : LogicalOp → TokenKind
  | .or => .kwOr
  | .and => .kwAnd

/-- The token of a unary operator. -/
def UnaryOp.kind : UnaryOp → TokenKind
  | .neg => .minus
  | .not => .bang

/-- How tight an expression holds together. -/
def Expr.rank : Expr → Nat
  | .assign .. | .assignField .. => 0
  | .logical _ op .. => op.rank
  | .binary _ op .. => op.rank
  | .is .. => 4
  | .unary .. => 7
  | .unwrap .. | .call .. | .field .. | .methodCall .. => 8
  | .literal .. | .name .. | .self .. | .closure .. => 9

/-- Whether an expression is a member, which is called as a method unless it is in parentheses. -/
def Expr.isField : Expr → Bool
  | .field .. => true
  | _ => false

/-! ## Expressions and statements -/

mutual

/-- A written expression. -/
def Expr.written : Expr → Written
  | .literal _ value => .word (.literal value)
  | .name _ ident => .word (.name ident)
  | .self _ => .mark .kwSelf
  | .binary _ op left right =>
    left.written.grouped (left.rank < op.rank) ++ .mark op.kind ++
      right.written.grouped (right.rank < op.rank + 1)
  | .logical _ op left right =>
    left.written.grouped (left.rank < op.rank) ++ .mark op.kind ++
      right.written.grouped (right.rank < op.rank + 1)
  | .unary _ op operand => .mark op.kind ++ (operand.written.grouped (operand.rank < 7)).inner
  | .is _ value type _ =>
    value.written.grouped (value.rank < 4) ++ .mark .kwIs ++ type.written.inner
  | .unwrap _ value => value.written.grouped (value.rank < 8) ++ .mark .bang
  | .assign _ _ ident value => .word (.name ident) ++ .mark .equal ++ value.written.linked
  | .assignField _ _ object member value =>
    object.written.grouped (object.rank < 8) ++ .mark .dot ++ .word (.name member) ++
      .mark .equal ++ value.written.linked
  | .call _ function args =>
    function.written.grouped (function.rank < 8 || function.isField) ++ .mark .leftParen ++
      .commas (Expr.writtenList args) ++ .mark .rightParen
  | .field _ object member =>
    object.written.grouped (object.rank < 8) ++ .mark .dot ++ .word (.name member)
  | .methodCall _ recv method args =>
    recv.written.grouped (recv.rank < 8) ++ .mark .dot ++ .word (.name method) ++
      .mark .leftParen ++ .commas (Expr.writtenList args) ++ .mark .rightParen
  | .closure _ params res ⟨_, body⟩ _ =>
    .mark .kwFn ++ writtenParams params ++ writtenType .arrow res ++ .block (Stmt.writtenList body)

/-- Written expressions, each one level further in. -/
def Expr.writtenList : List Expr → List Written
  | [] => []
  | e :: rest => e.written.inner :: Expr.writtenList rest

/-- A written statement without the terminator after it. -/
def Stmt.written : Stmt → Written
  | .block ⟨_, body⟩ => .block (Stmt.writtenList body)
  | .varDecl _ name type value _ =>
    let value := match value with
      | some value => .mark .equal ++ value.written.inner
      | none => .empty
    .mark .kwVar ++ .word (.name name) ++ writtenType .colon type ++ value
  | .expr _ value => value.written.inner
  | .ifElse _ cond ⟨_, body⟩ alt =>
    let alt := match alt with
      | some alt => .mark .kwElse ++ alt.written.linked
      | none => .empty
    .mark .kwIf ++ cond.written.inner ++ .block (Stmt.writtenList body) ++ alt
  | .whileLoop _ cond ⟨_, body⟩ =>
    .mark .kwWhile ++ cond.written.inner ++ .block (Stmt.writtenList body)
  | .forRange _ name start stop ⟨_, body⟩ =>
    .mark .kwFor ++ .word (.name name) ++ .mark .kwIn ++ start.written.inner ++ .mark .dotDot ++
      stop.written.inner ++ .block (Stmt.writtenList body)
  | .ret _ value =>
    let value := match value with
      | some value => value.written.inner
      | none => .empty
    .mark .kwReturn ++ value
  | .function ⟨_, name, params, res, ⟨_, body⟩, _, _⟩ =>
    writtenFunction name params res (Stmt.writtenList body)
  | .struct ⟨_, name, traits, fields, methods⟩ =>
    .mark .kwStruct ++ .word (.name name) ++ writtenTraits traits ++ .mark .leftBrace ++
      .ended (fields.map writtenField) ++ .ended (Stmt.writtenMethods methods) ++
      .mark .rightBrace
  | .trait decl =>
    .mark .kwTrait ++ .word (.name decl.name) ++ .mark .leftBrace ++
      .ended (decl.methods.map writtenMethodSig) ++ .mark .rightBrace

/-- Written statements. -/
def Stmt.writtenList : List Stmt → List Written
  | [] => []
  | s :: rest => s.written :: Stmt.writtenList rest

/-- Written methods of a struct. -/
def Stmt.writtenMethods : List (FunctionDecl Stmt) → List Written
  | [] => []
  | ⟨_, name, params, res, ⟨_, body⟩, _, _⟩ :: rest =>
    writtenFunction name params res (Stmt.writtenList body) :: Stmt.writtenMethods rest

end

/-- A written program. -/
def Program.written (prog : Program) : Written := .ended (Stmt.writtenList prog)

/-! ## Trees without positions -/

namespace TypeExpr

mutual

/-- A type without positions. -/
def unplaced : TypeExpr → TypeExpr
  | .named _ name nilable => .named default name nilable
  | .function _ params res nilable =>
    let res := match res with
      | some res => some res.unplaced
      | none => none
    .function default (unplacedList params) res nilable

/-- Types without positions. -/
def unplacedList : List TypeExpr → List TypeExpr
  | [] => []
  | type :: rest => type.unplaced :: unplacedList rest

end

end TypeExpr

/-- A note without its position. -/
def Note.unplaced (note : Note) : Note := { note with position := default }

/-- A parameter without positions. -/
def Param.unplaced (param : Param) : Param := ⟨default, param.name, param.written.unplaced⟩

/-- A field without positions. -/
def FieldDecl.unplaced (field : FieldDecl) : FieldDecl :=
  ⟨default, field.name, field.written.map TypeExpr.unplaced⟩

/-- A listed trait without its position. -/
def TraitRef.unplaced (ref : TraitRef) : TraitRef := ⟨default, ref.name⟩

/-- A method of a trait without positions. -/
def MethodSig.unplaced (method : MethodSig) : MethodSig :=
  ⟨default, method.name, method.params.map Param.unplaced, method.result.map TypeExpr.unplaced⟩

/-- A trait without positions. -/
def TraitDecl.unplaced (decl : TraitDecl) : TraitDecl :=
  ⟨default, decl.name, decl.methods.map MethodSig.unplaced⟩

mutual

/-- An expression without positions. -/
def Expr.unplaced : Expr → Expr
  | .literal note value => .literal note.unplaced value
  | .name note ident => .name note.unplaced ident
  | .self note => .self note.unplaced
  | .binary note op left right => .binary note.unplaced op left.unplaced right.unplaced
  | .logical note op left right => .logical note.unplaced op left.unplaced right.unplaced
  | .unary note op operand => .unary note.unplaced op operand.unplaced
  | .is note value type target => .is note.unplaced value.unplaced type.unplaced target
  | .unwrap note value => .unwrap note.unplaced value.unplaced
  | .assign note target ident value => .assign note.unplaced target.unplaced ident value.unplaced
  | .assignField note target object member value =>
    .assignField note.unplaced target.unplaced object.unplaced member value.unplaced
  | .call note function args => .call note.unplaced function.unplaced (Expr.unplacedList args)
  | .field note object member => .field note.unplaced object.unplaced member
  | .methodCall note recv method args =>
    .methodCall note.unplaced recv.unplaced method (Expr.unplacedList args)
  | .closure note params res ⟨_, body⟩ captures =>
    .closure note.unplaced (params.map Param.unplaced) (res.map TypeExpr.unplaced)
      ⟨default, Stmt.unplacedList body⟩ captures

/-- Expressions without positions. -/
def Expr.unplacedList : List Expr → List Expr
  | [] => []
  | e :: rest => e.unplaced :: Expr.unplacedList rest

/-- A statement without positions. -/
def Stmt.unplaced : Stmt → Stmt
  | .block ⟨_, body⟩ => .block ⟨default, Stmt.unplacedList body⟩
  | .varDecl _ name type value resolved =>
    let value := match value with
      | some value => some value.unplaced
      | none => none
    .varDecl default name (type.map TypeExpr.unplaced) value resolved
  | .expr _ value => .expr default value.unplaced
  | .ifElse _ cond ⟨_, body⟩ alt =>
    let alt := match alt with
      | some alt => some alt.unplaced
      | none => none
    .ifElse default cond.unplaced ⟨default, Stmt.unplacedList body⟩ alt
  | .whileLoop _ cond ⟨_, body⟩ =>
    .whileLoop default cond.unplaced ⟨default, Stmt.unplacedList body⟩
  | .forRange _ name start stop ⟨_, body⟩ =>
    .forRange default name start.unplaced stop.unplaced ⟨default, Stmt.unplacedList body⟩
  | .ret _ value =>
    let value := match value with
      | some value => some value.unplaced
      | none => none
    .ret default value
  | .function ⟨_, name, params, res, ⟨_, body⟩, captures, sig⟩ =>
    .function ⟨default, name, params.map Param.unplaced, res.map TypeExpr.unplaced,
      ⟨default, Stmt.unplacedList body⟩, captures, sig⟩
  | .struct ⟨_, name, traits, fields, methods⟩ =>
    .struct ⟨default, name, traits.map TraitRef.unplaced, fields.map FieldDecl.unplaced,
      Stmt.unplacedMethods methods⟩
  | .trait decl => .trait decl.unplaced

/-- Statements without positions. -/
def Stmt.unplacedList : List Stmt → List Stmt
  | [] => []
  | s :: rest => s.unplaced :: Stmt.unplacedList rest

/-- Methods without positions. -/
def Stmt.unplacedMethods : List (FunctionDecl Stmt) → List (FunctionDecl Stmt)
  | [] => []
  | ⟨_, name, params, res, ⟨_, body⟩, captures, sig⟩ :: rest =>
    ⟨default, name, params.map Param.unplaced, res.map TypeExpr.unplaced,
      ⟨default, Stmt.unplacedList body⟩, captures, sig⟩ :: Stmt.unplacedMethods rest

end

-- The equations of these long recursions are made here, once for all modules that use them.
attribute [grind =] TypeExpr.written TypeExpr.unplaced Stmt.written Stmt.unplaced

/-! ## Trees as the parser leaves them -/

/-- Whether nothing is noted of an expression but its position. -/
def Note.Plain (note : Note) : Prop := note.ty = none ∧ note.widen = false

/-- Whether a statement can be the alternative of a conditional. -/
def Stmt.isAlternative : Stmt → Bool
  | .block _ | .ifElse .. => true
  | _ => false

/-- Whether a node is as the parser leaves it, the nodes below it aside. -/
def Node.Plain : Node → Prop
  | .expr e => e.note.Plain ∧ match e with
    | .is _ _ _ target => target = none
    | .closure _ _ _ _ captures => captures = []
    | _ => True
  | .stmt (.varDecl _ _ _ _ resolved) => resolved = none
  | .stmt (.ifElse _ _ _ (some alt)) => alt.isAlternative = true
  | .stmt (.function decl) => decl.captures = [] ∧ decl.signature = none
  | _ => True

/-- Whether an expression is as the parser leaves it. -/
def Expr.Plain (e : Expr) : Prop := ∀ node ∈ e.nodes, node.Plain

/-- Whether a statement is as the parser leaves it. -/
def Stmt.Plain (s : Stmt) : Prop := ∀ node ∈ s.nodes, node.Plain

/-- Whether a program is as the parser leaves it. -/
def Program.Plain (prog : Program) : Prop := ∀ node ∈ Stmt.nodesOfList prog, node.Plain

end FlowScript
