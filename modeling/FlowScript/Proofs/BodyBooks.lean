import FlowScript.Proofs.Annotation
import FlowScript.Proofs.RunLaws
/-!
# The books on function bodies

Bodies are checked out of order: a function waits from the start of its statement list until something
needs its return type or its declaration is reached.  What is checked and what waits is accounted for
with a potential.  `Analyzer.charge` counts the bodies of some kind whose check has begun and adds those
that wait, with all that are nested in them; `Analyzer.work` measures what waits.  A step that hands a
body from the waiting ones to its check leaves the first and lowers the second.

Most steps do not touch the books (`Check.Still`).  Without an error, more can be said: no key is used
twice (`Analyzer.Books`), and what waits gets less and less (`Analyzer.Drains`).
-/

namespace FlowScript

/-! ## Bodies among nodes -/

/-- The bodies of the functions, methods and anonymous functions among some nodes. -/
def bodies (nodes : List Node) : List (Block Stmt) :=
  nodes.filterMap fun node => node.function?.map Prod.snd

/-- How many of the bodies among some nodes are of a kind. -/
def tally (p : Block Stmt → Bool) (nodes : List Node) : Nat := (bodies nodes).countP p

section Tally

variable (p : Block Stmt → Bool)

@[simp] theorem tally_nil : tally p [] = 0 := rfl

@[simp] theorem tally_append (first second : List Node) :
    tally p (first ++ second) = tally p first + tally p second := by
  rw [tally, bodies, List.filterMap_append, List.countP_append]
  rfl

/-- A node that is no function does not count. -/
theorem tally_cons_of_none {node : Node} (other : node.function? = none) (rest : List Node) :
    tally p (node :: rest) = tally p rest := by
  rw [tally, bodies, List.filterMap_cons, other]
  rfl

/-- A node that is a function counts for its body. -/
theorem tally_cons_of_some {node : Node} {ty : Option Ty} {body : Block Stmt}
    (fn : node.function? = some (ty, body)) (rest : List Node) :
    tally p (node :: rest) = (if p body then 1 else 0) + tally p rest := by
  rw [tally, bodies, List.filterMap_cons, fn, Nat.add_comm]
  exact List.countP_cons

theorem tally_function (decl : FunctionDecl Stmt) :
    tally p (Stmt.function decl).nodes =
      (if p decl.body then 1 else 0) + tally p (Stmt.nodesOfList decl.body.statements) := by
  rw [Stmt.nodes, tally_cons_of_some p rfl, tally_cons_of_none p rfl]

/-- Of a list in which no node is a function nothing counts. -/
theorem tally_eq_zero {nodes : List Node} (none : ∀ node ∈ nodes, node.function? = none) :
    tally p nodes = 0 := by
  induction nodes with
  | nil => rfl
  | cons node rest ih =>
    rw [tally_cons_of_none p (none node (by simp)), ih fun other mem => none other (by simp [mem])]

end Tally

theorem length_nodes_function (decl : FunctionDecl Stmt) :
    (Stmt.function decl).nodes.length = 2 + (Stmt.nodesOfList decl.body.statements).length := by
  rw [Stmt.nodes, List.length_cons, List.length_cons]
  exact Nat.add_comm _ 2

/-- The nodes of methods are those of their declarations, one after the other. -/
theorem nodesOfMethods_cons (method : FunctionDecl Stmt) (rest : List (FunctionDecl Stmt)) :
    Stmt.nodesOfMethods (method :: rest) =
      (Stmt.function method).nodes ++ Stmt.nodesOfMethods rest := by
  rw [Stmt.nodesOfMethods, Stmt.nodes]
  rfl

namespace Stmt

/-- The nodes of a function, which waits as soon as its name is declared. -/
def functionNodes : Stmt → List Node
  | .function decl => (Stmt.function decl).nodes
  | _ => []

/-- The methods of a struct, which wait as soon as their types are resolved. -/
def methodNodes : Stmt → List Node
  | .struct decl => nodesOfMethods decl.methods
  | _ => []

/-- The nodes that are checked where the statement stands. -/
def placedNodes (s : Stmt) : List Node := if s.isDeclaration then [] else s.nodes

/-- A body waits from its declaration on, or is checked where it stands. -/
theorem tally_nodes (p : Block Stmt → Bool) (s : Stmt) :
    tally p s.nodes = tally p s.functionNodes + (tally p s.methodNodes + tally p s.placedNodes) := by
  cases s with
  | struct decl =>
    have fields : tally p (decl.fields.map Node.field) = 0 :=
      tally_eq_zero p (by simp [Node.function?])
    rw [nodes, tally_cons_of_none p rfl, tally_append, fields]
    simp [functionNodes, methodNodes, placedNodes, isDeclaration]
  | trait decl =>
    rw [nodes, tally_cons_of_none p rfl, tally_eq_zero p (by simp [Node.function?])]
    rfl
  | _ => simp [functionNodes, methodNodes, placedNodes, isDeclaration]

theorem length_nodes (s : Stmt) :
    s.functionNodes.length + (s.methodNodes.length + s.placedNodes.length) ≤ s.nodes.length := by
  cases s with
  | struct decl =>
    rw [nodes, List.length_cons, List.length_append]
    simp only [functionNodes, methodNodes, placedNodes, isDeclaration, if_true, List.length_nil]
    omega
  | _ => simp [functionNodes, methodNodes, placedNodes, isDeclaration]

theorem tally_nodesOfList (p : Block Stmt → Bool) (stmts : List Stmt) :
    tally p (nodesOfList stmts) =
      tally p (stmts.flatMap functionNodes) +
        (tally p (stmts.flatMap methodNodes) + tally p (stmts.flatMap placedNodes)) := by
  induction stmts with
  | nil => simp [nodesOfList]
  | cons s rest ih =>
    simp only [nodesOfList, List.flatMap_cons, tally_append, ih, tally_nodes p s]
    omega

theorem length_nodesOfList (stmts : List Stmt) :
    (stmts.flatMap functionNodes).length +
      ((stmts.flatMap methodNodes).length + (stmts.flatMap placedNodes).length) ≤
        (nodesOfList stmts).length := by
  induction stmts with
  | nil => simp [nodesOfList]
  | cons s rest ih =>
    have first := s.length_nodes
    simp only [nodesOfList, List.flatMap_cons, List.length_append]
    omega

end Stmt

/-! ## Sums over tables -/

namespace Table

variable {κ α : Type} [DecidableEq κ] (weight : α → Nat)
variable {key : κ} {table : Table κ α} {value : α}

/-- The sum of the weights of the bound values. -/
def total (table : Table κ α) : Nat :=
  table.entries.foldr (fun entry sum => weight entry.2 + sum) 0

theorem sum_bind_le (key : κ) (value : α) (pairs : List (κ × α)) :
    (bind key value pairs).foldr (fun pair sum => weight pair.2 + sum) 0 ≤
      pairs.foldr (fun pair sum => weight pair.2 + sum) 0 + weight value := by
  induction pairs with
  | nil => simp [bind]
  | cons head rest ih =>
    rw [bind]
    split
    · simp only [List.foldr_cons]
      omega
    · simp only [List.foldr_cons]
      omega

/-- A binding adds at most the weight of its value. -/
theorem total_insert_le (table : Table κ α) (key : κ) (value : α) :
    (table.insert key value).total weight ≤ table.total weight + weight value :=
  sum_bind_le weight key value table.entries

theorem sum_bind_of_lookup_eq_none (value : α) {pairs : List (κ × α)} (new : lookup key pairs = none) :
    (bind key value pairs).foldr (fun pair sum => weight pair.2 + sum) 0 =
      pairs.foldr (fun pair sum => weight pair.2 + sum) 0 + weight value := by
  induction pairs with
  | nil => simp [bind]
  | cons head rest ih =>
    obtain ⟨k, a⟩ := head
    rw [lookup] at new
    split at new
    · cases new
    · rename_i other
      rw [bind, if_neg other]
      simp only [List.foldr_cons, ih new, Nat.add_assoc]

/-- A binding of a new key adds the weight of its value. -/
theorem total_insert (new : table.find? key = none) (value : α) :
    (table.insert key value).total weight = table.total weight + weight value :=
  sum_bind_of_lookup_eq_none weight value new

theorem sum_filter_le (key : κ) (pairs : List (κ × α)) :
    (pairs.filter fun entry => !decide (entry.1 = key)).foldr (fun pair sum => weight pair.2 + sum) 0 ≤
      pairs.foldr (fun pair sum => weight pair.2 + sum) 0 := by
  induction pairs with
  | nil => simp
  | cons head rest ih =>
    rw [List.filter_cons]
    split
    · simp only [List.foldr_cons]
      omega
    · simp only [List.foldr_cons]
      omega

/-- What is taken out of a table is taken off the sum of its weights. -/
theorem sum_filter_of_lookup {pairs : List (κ × α)} (found : lookup key pairs = some value) :
    (pairs.filter fun entry => !decide (entry.1 = key)).foldr (fun pair sum => weight pair.2 + sum) 0 +
        weight value ≤ pairs.foldr (fun pair sum => weight pair.2 + sum) 0 ∧
      ((pairs.map Prod.fst).Nodup →
        (pairs.filter fun entry => !decide (entry.1 = key)).foldr
            (fun pair sum => weight pair.2 + sum) 0 + weight value =
          pairs.foldr (fun pair sum => weight pair.2 + sum) 0) := by
  induction pairs with
  | nil => cases found
  | cons head rest ih =>
    obtain ⟨k, a⟩ := head
    rw [lookup] at found
    split at found
    · rename_i same
      subst same
      cases found
      have le := sum_filter_le weight k rest
      simp only [List.filter_cons, decide_true, Bool.not_true, Bool.false_eq_true, if_false,
        List.map_cons, List.foldr_cons]
      refine ⟨by omega, fun distinct => ?_⟩
      -- the other keys are others, so nothing else is removed
      have others : ∀ entry ∈ rest, (!decide (entry.1 = k)) = true := by
        intro entry mem
        have new := (List.nodup_cons.mp distinct).1
        simp only [Bool.not_eq_true', decide_eq_false_iff_not]
        rintro rfl
        exact new (List.mem_map_of_mem mem)
      rw [List.filter_eq_self.mpr others, Nat.add_comm]
    · rename_i other
      obtain ⟨le, eq⟩ := ih found
      simp only [List.filter_cons, other, decide_false, Bool.not_false, if_true, List.map_cons,
        List.foldr_cons]
      refine ⟨by omega, fun distinct => ?_⟩
      have same := eq (List.nodup_cons.mp distinct).2
      omega

/-- A removal takes at least the weight of the value that is found. -/
theorem total_erase_le (found : table.find? key = some value) :
    (table.erase key).total weight + weight value ≤ table.total weight :=
  (sum_filter_of_lookup weight found).1

/-- Where no key is bound twice, a removal takes the weight of the value that is found. -/
theorem total_erase (distinct : table.keys.Nodup) (found : table.find? key = some value) :
    (table.erase key).total weight + weight value = table.total weight :=
  (sum_filter_of_lookup weight found).2 distinct

/-- A table that binds no key is empty. -/
theorem eq_empty (none : ∀ key, table.contains key = false) : table = Table.empty := by
  obtain ⟨entries⟩ := table
  cases entries with
  | nil => rfl
  | cons first rest =>
    have bound := (contains_iff_mem_keys ⟨first :: rest⟩ first.1).mpr List.mem_cons_self
    rw [none] at bound
    cases bound

theorem nodup_keys_erase (distinct : table.keys.Nodup) (key : κ) : (table.erase key).keys.Nodup :=
  (List.filter_sublist.map Prod.fst).nodup distinct

end Table

namespace Analyzer

/-! ## Measures -/

/-- The bodies whose check has begun, in this order. -/
def visited (a : Analyzer) : List (Block Stmt) :=
  a.contexts.toList.map FunctionContext.body

/-- How many bodies of a kind were checked or wait, on their own or nested in a body that waits. -/
def charge (p : Block Stmt → Bool) (a : Analyzer) : Nat :=
  a.visited.countP p +
    a.pending.total fun fn => tally p (Stmt.function fn.decl).nodes

/-- How much waits: two for every node of a function. -/
def work (a : Analyzer) : Nat :=
  a.pending.total fun fn => 2 * (Stmt.function fn.decl).nodes.length

/-- Whether there is a function with a key. -/
def HasKey (a : Analyzer) : FunctionKey → Prop
  | .function id => id < a.symbols.size
  | .method sname name =>
    ∃ info, a.structs.find? sname = some info ∧ info.methods.contains name = true ∧
      ∃ method ∈ info.decl.methods, method.name = name

/-- Books without an error: no key is used twice, there are the functions that wait, and they are as the
parser left them. -/
structure Books (analyzer : Analyzer) : Prop where
  distinct : analyzer.pending.keys.Nodup
  known : ∀ key, analyzer.pending.contains key = true → analyzer.HasKey key
  plain : ∀ function ∈ analyzer.pending.values, (Stmt.function function.decl).Plain

/-- Whether no method of a struct waits. -/
def Clear (a : Analyzer) (sname : String) : Prop :=
  ∀ name, a.pending.contains (.method sname name) = false

/-- Whether the methods of a struct are put off, or none waits. -/
def Covers (a : Analyzer) (sname : String) : Prop :=
  sname ∈ a.deferred ∨ a.Clear sname

/-- Nothing waits that did not wait before, and the methods of structs that were put off are so still, or
do not wait any more. -/
structure Drains (before after : Analyzer) : Prop where
  waiting : ∀ key, after.pending.contains key = true → before.pending.contains key = true
  deferred : ∀ structName ∈ before.deferred, after.Covers structName

/-- Whether what a statement declares, once the statement was checked, does not wait any more: a function
was checked, and the methods of a struct were, or are put off. -/
def Done (a : Analyzer) : Stmt × Check.Declared → Prop
  | (.function _, .function key) => a.pending.contains key = false
  | (.struct decl, .struct true) => a.Covers decl.name
  | _ => True

/-- Whether names, structs and their methods stay. -/
structure KeepsKeys (before after : Analyzer) : Prop where
  symbols : before.symbols.size ≤ after.symbols.size
  structs : ∀ name info, before.structs.find? name = some info →
    ∃ later, after.structs.find? name = some later ∧ later.decl = info.decl ∧
      ∀ method, info.methods.contains method = true → later.methods.contains method = true

/-- A change that does not touch the books. -/
structure Quiet (before after : Analyzer) : Prop where
  visited : after.visited = before.visited
  pending : after.pending = before.pending
  deferred : after.deferred = before.deferred
  keys : before.KeepsKeys after

variable {before mid after : Analyzer}

namespace KeepsKeys

theorem of_eq (symbols : before.symbols.size ≤ after.symbols.size)
    (structs : after.structs = before.structs) : before.KeepsKeys after :=
  ⟨symbols, fun _ info found => ⟨info, structs ▸ found, rfl, fun _ => id⟩⟩

theorem trans (first : before.KeepsKeys mid) (second : mid.KeepsKeys after) :
    before.KeepsKeys after := by
  refine ⟨Nat.le_trans first.symbols second.symbols, fun name info found => ?_⟩
  obtain ⟨between, foundBetween, sameDecl, methods⟩ := first.structs name info found
  obtain ⟨later, foundLater, laterDecl, further⟩ := second.structs name between foundBetween
  exact ⟨later, foundLater, laterDecl.trans sameDecl, fun method listed =>
    further method (methods method listed)⟩

theorem hasKey (h : before.KeepsKeys after) {key : FunctionKey} (known : before.HasKey key) :
    after.HasKey key := by
  cases key with
  | function id => exact Nat.lt_of_lt_of_le known h.symbols
  | method sname name =>
    obtain ⟨info, found, listed, declared⟩ := known
    obtain ⟨later, foundLater, same, methods⟩ := h.structs sname info found
    exact ⟨later, foundLater, methods name listed, same ▸ declared⟩

/-- A struct is changed that keeps its declaration and its methods. -/
theorem modifyStruct (a : Analyzer) (name : String) {f : StructInfo → StructInfo}
    (decl : ∀ info, (f info).decl = info.decl)
    (methods : ∀ info method, info.methods.contains method = true →
      (f info).methods.contains method = true) :
    a.KeepsKeys (a.modifyStruct name f) := by
  constructor
  · unfold Analyzer.modifyStruct
    split <;> exact Nat.le_refl _
  · intro other info found
    rw [find?_modifyStruct]
    split
    · rename_i same
      rw [same, found]
      exact ⟨f info, rfl, decl info, methods info⟩
    · exact ⟨info, found, rfl, fun _ => id⟩

/-- A struct of a new name is declared. -/
theorem insertStruct {a : Analyzer} {name : String}
    (new : a.structs.contains name = false) (info : StructInfo) :
    a.KeepsKeys { a with structs := a.structs.insert name info } := by
  refine ⟨Nat.le_refl _, fun other old found => ⟨old, ?_, rfl, fun _ => id⟩⟩
  rw [Table.find?_insert_of_ne, found]
  rintro rfl
  rw [Table.contains, found] at new
  cases new

end KeepsKeys

namespace Drains

theorem refl (a : Analyzer) : a.Drains a := ⟨fun _ => id, fun _ => .inl⟩

theorem not_waiting (h : before.Drains after) {key : FunctionKey}
    (none : before.pending.contains key = false) : after.pending.contains key = false := by
  rw [Bool.eq_false_iff] at none ⊢
  exact fun waits => none (h.waiting key waits)

theorem clear (h : before.Drains after) {sname : String} (clear : before.Clear sname) :
    after.Clear sname :=
  fun name => h.not_waiting (clear name)

theorem covers (h : before.Drains after) {sname : String} (covers : before.Covers sname) :
    after.Covers sname :=
  covers.elim (h.deferred sname) fun clear => .inr (h.clear clear)

theorem done (h : before.Drains after) {pair : Stmt × Check.Declared} (done : before.Done pair) :
    after.Done pair := by
  unfold Done at done ⊢
  split
  · exact h.not_waiting done
  · exact h.covers done
  · trivial

theorem trans (first : before.Drains mid) (second : mid.Drains after) : before.Drains after :=
  ⟨fun key waits => first.waiting key (second.waiting key waits),
    fun sname mem => second.covers (first.deferred sname mem)⟩

end Drains

namespace Quiet

/-- A change of other parts of the state. -/
theorem of_eq (contexts : after.contexts = before.contexts) (pending : after.pending = before.pending)
    (deferred : after.deferred = before.deferred) (symbols : before.symbols.size ≤ after.symbols.size)
    (structs : after.structs = before.structs) : before.Quiet after := by
  exact ⟨by rw [Analyzer.visited, contexts, Analyzer.visited], pending, deferred, .of_eq symbols structs⟩

theorem refl (a : Analyzer) : a.Quiet a :=
  of_eq rfl rfl rfl (Nat.le_refl _) rfl

theorem trans (first : before.Quiet mid) (second : mid.Quiet after) : before.Quiet after :=
  ⟨second.visited.trans first.visited, second.pending.trans first.pending,
    second.deferred.trans first.deferred, first.keys.trans second.keys⟩

theorem charge_eq (h : before.Quiet after) (p : Block Stmt → Bool) :
    after.charge p = before.charge p := by
  rw [charge, charge, h.visited, h.pending]

theorem work_eq (h : before.Quiet after) : after.work = before.work := by
  rw [work, work, h.pending]

theorem books (h : before.Quiet after) (books : before.Books) : after.Books := by
  obtain ⟨distinct, known, plain⟩ := books
  constructor <;> rw [h.pending]
  · exact distinct
  · exact fun key waits => h.keys.hasKey (known key waits)
  · exact plain

theorem drains (h : before.Quiet after) : before.Drains after := by
  constructor
  · intro key waits
    rwa [h.pending] at waits
  · intro sname mem
    exact .inl (h.deferred ▸ mem)

/-- A function context is changed that keeps its body. -/
theorem modifyContext (a : Analyzer) (id : Nat) {f : FunctionContext → FunctionContext}
    (body : ∀ context, (f context).body = context.body) :
    a.Quiet (a.modifyContext id f) := by
  refine ⟨?_, rfl, rfl, .of_eq (Nat.le_refl _) rfl⟩
  refine List.ext_getElem? fun index => ?_
  simp only [Analyzer.visited, Analyzer.modifyContext, List.getElem?_map, Array.getElem?_toList,
    Array.getElem?_modify]
  split
  · cases a.contexts[index]? with
    | none => rfl
    | some context => exact congrArg some (body context)
  · rfl

/-- A struct is changed that keeps its declaration and its methods. -/
theorem modifyStruct (a : Analyzer) (name : String) {f : StructInfo → StructInfo}
    (decl : ∀ info, (f info).decl = info.decl)
    (methods : ∀ info method, info.methods.contains method = true →
      (f info).methods.contains method = true) :
    a.Quiet (a.modifyStruct name f) := by
  have keys := KeepsKeys.modifyStruct a name decl methods
  unfold Analyzer.modifyStruct at keys ⊢
  split
  · rename_i info found
    rw [found] at keys
    exact ⟨rfl, rfl, rfl, keys⟩
  · exact .refl a

end Quiet

/-! ## A body is taken from those that wait -/

section Erase

variable {a : Analyzer} {key : FunctionKey} {fn : PendingFunction}

theorem charge_erase_le (p : Block Stmt → Bool) (found : a.pending.find? key = some fn) :
    charge p { a with pending := a.pending.erase key } +
      tally p (Stmt.function fn.decl).nodes ≤ a.charge p := by
  have le := Table.total_erase_le (fun other : PendingFunction =>
    tally p (Stmt.function other.decl).nodes) found
  simp only [charge, visited]
  omega

theorem charge_erase (p : Block Stmt → Bool) (books : a.Books)
    (found : a.pending.find? key = some fn) :
    charge p { a with pending := a.pending.erase key } +
      tally p (Stmt.function fn.decl).nodes = a.charge p := by
  have eq := Table.total_erase (fun other : PendingFunction =>
    tally p (Stmt.function other.decl).nodes) books.distinct found
  simp only [charge, visited]
  omega

theorem work_erase_le (found : a.pending.find? key = some fn) :
    work { a with pending := a.pending.erase key } +
      2 * (Stmt.function fn.decl).nodes.length ≤ a.work :=
  Table.total_erase_le (fun other : PendingFunction =>
    2 * (Stmt.function other.decl).nodes.length) found

theorem drains_erase (a : Analyzer) (key : FunctionKey) :
    a.Drains { a with pending := a.pending.erase key } := by
  refine ⟨fun other waits => ?_, fun _ => .inl⟩
  rw [Table.contains_erase, Bool.and_eq_true] at waits
  exact waits.2

theorem Books.erase (books : a.Books) (key : FunctionKey) :
    Books { a with pending := a.pending.erase key } where
  distinct := Table.nodup_keys_erase books.distinct key
  known other waits := books.known other ((drains_erase a key).waiting _ waits)
  plain fn mem := by
    obtain ⟨entry, kept, rfl⟩ := List.mem_map.mp mem
    exact books.plain _ (List.mem_map_of_mem (List.mem_filter.mp kept).1)

end Erase

/-! ## A body starts to wait -/

section Insert

variable {a : Analyzer} {key : FunctionKey} (fn : PendingFunction)

theorem charge_insert_le (p : Block Stmt → Bool) (a : Analyzer) (key : FunctionKey) :
    charge p { a with pending := a.pending.insert key fn } ≤
      a.charge p + tally p (Stmt.function fn.decl).nodes := by
  have le := Table.total_insert_le (fun other : PendingFunction =>
    tally p (Stmt.function other.decl).nodes) a.pending key fn
  simp only [charge, visited]
  omega

theorem charge_insert (p : Block Stmt → Bool) (new : a.pending.contains key = false) :
    charge p { a with pending := a.pending.insert key fn } =
      a.charge p + tally p (Stmt.function fn.decl).nodes := by
  have eq := Table.total_insert (fun other : PendingFunction =>
    tally p (Stmt.function other.decl).nodes) (Option.isSome_eq_false_iff.mp new |> Option.isNone_iff_eq_none.mp) fn
  simp only [charge, visited]
  omega

theorem work_insert_le (a : Analyzer) (key : FunctionKey) :
    work { a with pending := a.pending.insert key fn } ≤
      a.work + 2 * (Stmt.function fn.decl).nodes.length :=
  Table.total_insert_le (fun other : PendingFunction =>
    2 * (Stmt.function other.decl).nodes.length) a.pending key fn

theorem Books.insert (books : a.Books) (known : a.HasKey key) {fn : PendingFunction}
    (plain : (Stmt.function fn.decl).Plain) :
    Books { a with pending := a.pending.insert key fn } where
  distinct := Table.nodup_keys_insert books.distinct key fn
  known other waits := by
    rw [Table.contains_insert, Bool.or_eq_true, decide_eq_true_eq] at waits
    rcases waits with rfl | waits
    · exact known
    · exact books.known other waits
  plain other mem := by
    rcases Table.mem_values_insert mem with rfl | old
    · exact plain
    · exact books.plain other old

end Insert

end Analyzer

/-! ## Steps that do not touch the books -/

theorem Analyzer.Adjusts.quiet {before after : Analyzer} (h : before.Adjusts after) : before.Quiet after := by
  refine ⟨?_, h.pending, h.deferred, h.symbols, fun name info found => ?_⟩
  · refine List.ext_getElem (by simp [visited, h.contextCount]) fun id left right => ?_
    have same := h.bodies id
    rw [visited, List.length_map, Array.length_toList] at left right
    simpa [visited, context, left, right] using same
  · have same := h.structs name
    rw [found, Option.map_some] at same
    obtain ⟨later, foundLater, eq⟩ := Option.map_eq_some_iff.mp same
    simp only [StructInfo.interface, Prod.mk.injEq] at eq
    exact ⟨later, foundLater, eq.1, fun _ => eq.2.1 ▸ id⟩

namespace Check

variable {α β : Type} {start : Analyzer}

/-- The law of runs that do not touch the books and have no part that nests too deep. -/
def Untouched : RunLaw := fun start stop _ after => start.Quiet after ∧ stop ≠ some .tooDeep

instance : Lawful Untouched where
  done a := ⟨.refl a, nofun⟩
  seq first second := ⟨first.1.trans second.1, second.2⟩
  cut _ h := ⟨h.1, nofun⟩
  tell a _ _ _ := ⟨.refl a, nofun⟩
  adjust h adjusts := ⟨h.1.trans adjusts.quiet, h.2⟩

/-- Whether a computation from a state does not touch the books, and has no part that nests too deep. -/
abbrev Still (start : Analyzer) (action : Check α) : Prop := ObeysFrom Untouched start action

namespace Still

variable {action : Check α}

theorem quiet (h : Still start action) : start.Quiet (action start).result.2 := h.1

theorem shallow (h : Still start action) : (action start).result.1 ≠ .error .tooDeep := by
  intro same
  exact h.2 (congrArg stop? same)

theorem pure (value : α) : Still start (Pure.pure value : Check α) := Obeys.pure value start

theorem bind {rest : α → Check β} (first : Still start action)
    (second : ∀ value mid, Still mid (rest value)) : Still start (action >>= rest) :=
  ObeysFrom.bind first fun value _ => second value _

theorem get {rest : Analyzer → Check β} (h : Still start (rest start)) :
    Still start (MonadState.get >>= rest) := h

theorem modify {change : Analyzer → Analyzer} (quiet : start.Quiet (change start)) :
    Still start (modify change : Check Unit) := ⟨quiet, nofun⟩

theorem report (problem : CheckProblem) (pos : Option Position) :
    Still start (Check.report problem pos) := ⟨.refl start, nofun⟩

theorem ite {cond : Prop} [Decidable cond] {yes no : Check α}
    (first : cond → Still start yes) (second : ¬cond → Still start no) :
    Still start (if cond then yes else no) := by
  split
  · exact first ‹_›
  · exact second ‹_›

/-! ### Declarations -/

theorem bindType (name : String) (ty : Ty) : Still start (Check.bindType name ty) :=
  modify (.of_eq rfl rfl rfl (Nat.le_refl _) rfl)

theorem resolveTrait (decl : TraitDecl) : Still start (Check.resolveTrait decl) := by
  refine Obeys.steps.forM decl.methods (fun method _ => Obeys.get fun _ => Obeys.ite (Obeys.report rfl _) ?_) start
  refine Obeys.bind (Obeys.steps.resolveSignature _ _ _) fun sig mid => ?_
  exact modify (.of_eq rfl rfl rfl (Nat.le_refl _) rfl)

theorem resolveField (decl : StructDecl Stmt) (field : FieldDecl) :
    Still start (Check.resolveField decl field) := by
  refine Obeys.get (fun _ => Obeys.ite (Obeys.report rfl _) ?_) start
  cases field.written with
  | some written => exact Obeys.bind (Obeys.steps.resolveType written) fun ty => Obeys.modify fun _ => .setField _ _ _ ty
  | none => exact Obeys.modify fun _ => .setField _ _ _ _

theorem resolveTraitRef (decl : StructDecl Stmt) (ref : TraitRef) :
    Still start (Check.resolveTraitRef decl ref) := by
  refine Obeys.get (fun a => ?_) start
  dsimp only
  split
  · exact Obeys.report rfl _
  · refine Obeys.ite (Obeys.report rfl _) fun start => ?_
    exact modify (.modifyStruct start decl.name (fun _ => rfl) fun _ _ listed => listed)
  · exact Obeys.report rfl _

theorem checkConformance (sname : String) : Still start (Check.checkConformance sname) :=
  Obeys.steps.checkConformance (fun problem pos _ => report problem pos) sname start

/-- A function is given its type. -/
theorem setSignature (key : FunctionKey) (sig : Ty) :
    Still start (Checks.setSignature key sig) := by
  refine modify ?_
  cases key with
  | function id => exact (Analyzer.Adjusts.modifySymbol start id _).quiet
  | method sname name =>
    refine .modifyStruct start sname (fun _ => rfl) fun info method listed => ?_
    exact Table.contains_insert_of_contains name sig listed

end Still

end Check

end FlowScript
