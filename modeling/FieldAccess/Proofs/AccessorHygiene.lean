import FieldAccess.Proofs.RelationLists
import FieldAccess.Proofs.Vocabulary

namespace FieldAccess

-- What stands before the first dot of a name, as `core` in `core.Record`.
def rootName (name : String) : String :=
  String.ofList (name.toList.takeWhile (· ≠ '.'))

namespace Expr

-- The name of the table or of the list that an expression looks up in.
def table? : Expr → Option String
  | index _ base _ => base.ident?
  | _ => none

-- A variable of this name hides nothing that the expression refers to.
def Avoids (x : String) (e : Expr) : Prop :=
  ∀ part : Expr, part.Within e → ∀ y ∈ part.referents ++ part.table?.toList, rootName y ≠ x

def AllAvoid (x : String) (es : List Expr) : Prop :=
  ∀ e ∈ es, e.Avoids x

variable {x : String}

theorem avoids_iff {e : Expr} : e.Avoids x ↔
    (∀ y ∈ e.referents ++ e.table?.toList, rootName y ≠ x) ∧ AllAvoid x e.operands := by
  constructor
  · exact fun h => ⟨h e (.self e), fun part mem inner within => h inner (.operand mem within)⟩
  · rintro ⟨own, operands⟩ part within
    cases within with
    | self => exact own
    | operand mem within => exact operands _ mem part within

@[simp]
theorem allAvoid_nil : AllAvoid x [] :=
  List.forall_mem_nil _

@[simp]
theorem allAvoid_cons {e : Expr} {es : List Expr} :
    AllAvoid x (e :: es) ↔ e.Avoids x ∧ AllAvoid x es :=
  List.forall_mem_cons

end Expr

namespace Stmt

-- A variable of this name hides nothing that the statement refers to, nor is it declared again.
def Avoids (x : String) (s : Stmt) : Prop :=
  ∀ part : Stmt, part.Within s → (∀ y ∈ part.boundNames, y ≠ "_" → y ≠ x) ∧
    (∀ y ∈ part.referents, rootName y ≠ x) ∧ Expr.AllAvoid x part.operands

def AllAvoid (x : String) (ss : List Stmt) : Prop :=
  ∀ s ∈ ss, s.Avoids x

variable {x : String}

theorem avoids_iff {s : Stmt} : s.Avoids x ↔ ((∀ y ∈ s.boundNames, y ≠ "_" → y ≠ x) ∧
    (∀ y ∈ s.referents, rootName y ≠ x) ∧ Expr.AllAvoid x s.operands) ∧ AllAvoid x s.parts := by
  constructor
  · exact fun h => ⟨h s (.self s), fun part mem inner within => h inner (.part mem within)⟩
  · rintro ⟨own, parts⟩ part within
    cases within with
    | self => exact own
    | part mem within => exact parts _ mem part within

@[simp]
theorem allAvoid_nil : AllAvoid x [] :=
  List.forall_mem_nil _

@[simp]
theorem allAvoid_append {ss ss' : List Stmt} :
    AllAvoid x (ss ++ ss') ↔ AllAvoid x ss ∧ AllAvoid x ss' :=
  List.forall_mem_append

@[simp]
theorem allAvoid_cons {s : Stmt} {ss : List Stmt} :
    AllAvoid x (s :: ss) ↔ s.Avoids x ∧ AllAvoid x ss :=
  List.forall_mem_cons

end Stmt

-- Of what accessors and mutators are built of, only calls, types and tables refer to anything, and
-- only definitions, loops and variables declare anything.
namespace Code

variable {span : Span} {x : String}

@[simp]
theorem ident?_ident {name : String} : (ident span name).ident? = some name :=
  rfl

attribute [local simp] Expr.avoids_iff Expr.referents Expr.table? Expr.operands Expr.ident?
  Stmt.avoids_iff Stmt.boundNames Stmt.referents Stmt.operands Stmt.parts Block.statements

@[simp]
theorem avoids_ident {name : String} : (ident span name).Avoids x := by
  simp [ident]

@[simp]
theorem avoids_text {value : String} : (text span value).Avoids x := by
  simp [text]

@[simp]
theorem avoids_number {value : Int64} : (number span value).Avoids x := by
  simp [number]

@[simp]
theorem avoids_nil : (nil span).Avoids x := by
  simp [nil]

@[simp]
theorem avoids_member {base : Expr} {name : String} :
    (member span base name).Avoids x ↔ base.Avoids x := by
  simp [member]

@[simp]
theorem avoids_item {base i : Expr} : (item span base i).Avoids x ↔
    (∀ y ∈ base.ident?, rootName y ≠ x) ∧ base.Avoids x ∧ i.Avoids x := by
  simp [item]

@[simp]
theorem avoids_apply {function : String} {args : List Expr} :
    (apply span function args).Avoids x ↔ rootName function ≠ x ∧ Expr.AllAvoid x args := by
  simp [apply, ident]

@[simp]
theorem avoids_method {receiver : Expr} {name : String} {args : List Expr} :
    (method span receiver name args).Avoids x ↔ receiver.Avoids x ∧ Expr.AllAvoid x args := by
  simp [method, member]

@[simp]
theorem avoids_make {type : TypeExpr} {sizes : List Expr} : (make span type sizes).Avoids x ↔
    rootName "make" ≠ x ∧ (∀ y ∈ type.typeNames, rootName y ≠ x) ∧ Expr.AllAvoid x sizes := by
  rw [make, avoids_apply, Expr.allAvoid_cons]
  simp

@[simp]
theorem avoids_fresh {type : TypeExpr} :
    (fresh span type).Avoids x ↔ ∀ y ∈ type.typeNames, rootName y ≠ x := by
  simp [fresh]

@[simp]
theorem avoids_define {names : List String} {value : Expr} : (define span names value).Avoids x ↔
    (∀ y ∈ names, y ≠ "_" → y ≠ x) ∧ value.Avoids x := by
  induction names with
  | nil => simp [define]
  | cons name names ih => simp_all [define, ident]

@[simp]
theorem avoids_assign {target value : Expr} :
    (assign span target value).Avoids x ↔ target.Avoids x ∧ value.Avoids x := by
  simp [assign]

@[simp]
theorem avoids_branch {init : Option Stmt} {cond : Expr} {body : List Stmt} :
    (branch span init cond body).Avoids x ↔
      cond.Avoids x ∧ (∀ s ∈ init, s.Avoids x) ∧ Stmt.AllAvoid x body := by
  cases init <;> simp [branch, block]

@[simp]
theorem avoids_each {key : String} {value : Option String} {iterable : Expr} {body : List Stmt} :
    (each span key value iterable body).Avoids x ↔
      ((key ≠ "_" → key ≠ x) ∧ ∀ y ∈ value, y ≠ "_" → y ≠ x) ∧
        iterable.Avoids x ∧ Stmt.AllAvoid x body := by
  cases value <;> simp [each, block, ident, and_assoc]

@[simp]
theorem avoids_answer {value : Expr} : (answer span value).Avoids x ↔ value.Avoids x := by
  simp [answer]

end Code

@[simp]
theorem Expr.avoids_unary {span : Span} {op : UnaryOp} {operand : Expr} {x : String} :
    (unary span op operand).Avoids x ↔ operand.Avoids x := by
  rw [avoids_iff]
  simp [referents, table?, operands]

@[simp]
theorem Expr.avoids_binary {span : Span} {op : BinaryOp} {left right : Expr} {x : String} :
    (binary span op left right).Avoids x ↔ left.Avoids x ∧ right.Avoids x := by
  rw [avoids_iff]
  simp [referents, table?, operands]

@[simp]
theorem Stmt.avoids_expr {e : Expr} {x : String} : (expr e).Avoids x ↔ e.Avoids x := by
  rw [avoids_iff]
  simp [boundNames, referents, operands, parts]

@[simp]
theorem Stmt.avoids_var {span : Span} {name : String} {type : TypeExpr} {x : String} :
    (var span [name] (some type) []).Avoids x ↔
      (name ≠ "_" → name ≠ x) ∧ ∀ y ∈ type.typeNames, rootName y ≠ x := by
  rw [avoids_iff]
  simp [boundNames, referents, operands, parts]

namespace AccessorSite

variable {s : AccessorSite} {x : String}

@[simp]
theorem statements_accessorOf {result : TypeExpr} {body : List Stmt} :
    (s.accessorOf result body).body.statements = body :=
  rfl

@[simp]
theorem statements_mutatorOf {type : TypeExpr} {body : List Stmt} :
    (s.mutatorOf type body).body.statements = body :=
  rfl

@[simp]
theorem avoids_receiver : s.receiver.Avoids x :=
  Code.avoids_ident

@[simp]
theorem avoids_key : s.key.Avoids x :=
  Code.avoids_text

@[simp]
theorem avoids_value : s.value.Avoids x :=
  Code.avoids_ident

@[simp]
theorem avoids_keyed {method : String} {args : List Expr} :
    (s.keyed method args).Avoids x ↔ Expr.AllAvoid x args := by
  simp [keyed]

@[simp]
theorem avoids_store {value : Expr} : (s.store value).Avoids x ↔ value.Avoids x := by
  simp [store]

@[simp]
theorem avoids_storeExpansion {records : Expr} : Stmt.AllAvoid x (s.storeExpansion records) ↔
    ("e" ≠ x ∧ rootName "e" ≠ x) ∧ records.Avoids x := by
  simp [storeExpansion, and_assoc]

@[simp]
theorem avoids_lookUp {result table : String} {key : Expr} :
    Stmt.AllAvoid x (s.lookUp result table key) ↔
      ((result ≠ "_" → result ≠ x) ∧ "ok" ≠ x) ∧ (rootName table ≠ x ∧ key.Avoids x) ∧
        rootName "panic" ≠ x := by
  simp [lookUp, and_assoc]

@[simp]
theorem avoids_extend {list element : String} :
    (s.extend list element).Avoids x ↔ rootName "append" ≠ x := by
  simp [extend]

@[simp]
theorem avoids_length {list : Expr} :
    (s.length list).Avoids x ↔ rootName "len" ≠ x ∧ list.Avoids x := by
  simp [length]

end AccessorSite

namespace Block

-- The body looks something up in a table or in a list of this name.
def LooksUp (b : Block) (x : String) : Prop :=
  ∃ e, b.Evaluates e ∧ e.table? = some x

theorem allAvoid_iff {b : Block} {x : String} : Stmt.AllAvoid x b.statements ↔
    (∀ y, b.Declares y → y ≠ "_" → y ≠ x) ∧
      ∀ y, b.RefersTo y ∨ b.LooksUp y → rootName y ≠ x := by
  constructor
  · intro h
    have statement {s : Stmt} (mem : b.Holds s) := h _ mem.choose_spec.1 s mem.choose_spec.2
    have expression {e : Expr} (mem : b.Evaluates e) :
        ∀ y ∈ e.referents ++ e.table?.toList, rootName y ≠ x := by
      obtain ⟨s, holds, operand, stands, within⟩ := mem
      exact (statement holds).2.2 operand stands e within
    refine ⟨fun y ⟨s, holds, hy⟩ => (statement holds).1 y hy, fun y hy => ?_⟩
    rcases hy with (⟨s, holds, hy⟩ | ⟨e, mem, hy⟩) | ⟨e, mem, hy⟩
    · exact (statement holds).2.1 y hy
    · exact expression mem y (List.mem_append_left _ hy)
    · exact expression mem y (List.mem_append_right _ (Option.mem_toList.2 hy))
  · rintro ⟨declared, referents⟩ top mem s within
    have holds : b.Holds s := ⟨top, mem, within⟩
    refine ⟨fun y hy => declared y ⟨s, holds, hy⟩,
      fun y hy => referents y (.inl (.inl ⟨s, holds, hy⟩)), fun operand stands e inside y hy => ?_⟩
    have evaluates : b.Evaluates e := ⟨s, holds, operand, stands, inside⟩
    rcases List.mem_append.1 hy with hy | hy
    · exact referents y (.inl (.inr ⟨e, evaluates, hy⟩))
    · exact referents y (.inr ⟨e, evaluates, Option.mem_toList.1 hy⟩)

end Block

namespace FuncDecl

-- The names of the receiver and of the parameters.
def ownNames (f : FuncDecl) : List String :=
  f.receiver.toList.map (·.name) ++ f.params.map (·.name)

-- The receiver and the parameters differ from one another, from every variable that the body
-- declares, and from every function, type and table that it refers to.
structure Hygienic (f : FuncDecl) : Prop where
  apart : f.ownNames.Nodup
  undeclared : ∀ x ∈ f.ownNames, ∀ y, f.body.Declares y → y ≠ "_" → y ≠ x
  uncaptured : ∀ x ∈ f.ownNames, ∀ y, f.body.RefersTo y ∨ f.body.LooksUp y → rootName y ≠ x

theorem hygienic_iff {f : FuncDecl} :
    f.Hygienic ↔ f.ownNames.Nodup ∧ ∀ x ∈ f.ownNames, Stmt.AllAvoid x f.body.statements := by
  simp only [Block.allAvoid_iff, forall_and]
  exact ⟨fun ⟨apart, undeclared, uncaptured⟩ => ⟨apart, undeclared, uncaptured⟩,
    fun ⟨apart, undeclared, uncaptured⟩ => ⟨apart, undeclared, uncaptured⟩⟩

end FuncDecl

-- The variables that a body declares, and the functions, types and tables that it refers to.
structure BodyNames where
  locals : List String
  referents : List String

-- Neither a variable of the body nor what it refers to has this name.
def BodyNames.Spare (n : BodyNames) (x : String) : Prop :=
  (∀ y ∈ n.locals, y ≠ x) ∧ ∀ y ∈ n.referents, rootName y ≠ x

instance {n : BodyNames} {x : String} : Decidable (n.Spare x) :=
  inferInstanceAs (Decidable ((∀ y ∈ n.locals, y ≠ x) ∧ ∀ y ∈ n.referents, rootName y ≠ x))

namespace Classification

def accessorNames (settings : Settings) : Classification → BodyNames
  | primitive _ _ => ⟨[], []⟩
  | relation .single target => ⟨["proxy", "rel"], [target]⟩
  | relation .multi target => ⟨["rels", "proxies", "i"], ["make", "len", target]⟩
  | enumeration .single enum => ⟨["option", "i", "ok"], ["panic", settings.nameTable enum]⟩
  | enumeration .multi enum =>
    ⟨["options", "is", "o", "i", "ok"],
      ["make", "len", "append", "panic", enum, settings.nameTable enum]⟩

def mutatorNames (settings : Settings) : Classification → BodyNames
  | primitive _ _ => ⟨[], []⟩
  | relation .single _ => ⟨["e"], []⟩
  | relation .multi _ => ⟨["records", "ids", "i", "r", "e"], ["make", "len", "core.Record", "string"]⟩
  | enumeration .single enum => ⟨["label", "ok"], ["panic", settings.ordinalTable enum]⟩
  | enumeration .multi enum =>
    ⟨["labels", "i", "label", "ok"],
      ["make", "len", "append", "panic", "string", settings.ordinalTable enum]⟩

end Classification

namespace AccessorSite

variable {s : AccessorSite} {x : String}

attribute [local simp] Classification.accessorNames Classification.mutatorNames BodyNames.Spare
  TypeExpr.typeNames TypeExpr.string

-- Lists of these variables are looked up in, under names without a dot.
theorem rootName_local : rootName "e" = "e" ∧ rootName "rels" = "rels" ∧
    rootName "proxies" = "proxies" ∧ rootName "records" = "records" ∧ rootName "ids" = "ids" := by
  decide

theorem primitive_avoids {getter : String} {type : TypeExpr} :
    Stmt.AllAvoid x (s.primitive getter type).accessor.body.statements ∧
      Stmt.AllAvoid x (s.primitive getter type).mutator.body.statements := by
  simp [primitive]

theorem singleRelation_avoids {target : String} :
    (Stmt.AllAvoid x (s.singleRelation target).accessor.body.statements ↔
        ((Classification.relation .single target).accessorNames s.settings).Spare x) ∧
      (Stmt.AllAvoid x (s.singleRelation target).mutator.body.statements ↔
        ((Classification.relation .single target).mutatorNames s.settings).Spare x) := by
  constructor <;> simp [singleRelation, rootName_local, and_assoc, and_left_comm, and_comm]

theorem multiRelation_avoids {target : String} :
    (Stmt.AllAvoid x (s.multiRelation target).accessor.body.statements ↔
        ((Classification.relation .multi target).accessorNames s.settings).Spare x) ∧
      (Stmt.AllAvoid x (s.multiRelation target).mutator.body.statements ↔
        ((Classification.relation .multi target).mutatorNames s.settings).Spare x) := by
  constructor <;> simp [multiRelation, rootName_local, and_assoc, and_left_comm, and_comm]

theorem singleEnum_avoids {enum : String} :
    (Stmt.AllAvoid x (s.singleEnum enum).accessor.body.statements ↔
        ((Classification.enumeration .single enum).accessorNames s.settings).Spare x) ∧
      (Stmt.AllAvoid x (s.singleEnum enum).mutator.body.statements ↔
        ((Classification.enumeration .single enum).mutatorNames s.settings).Spare x) := by
  constructor <;> simp [singleEnum, and_assoc, and_left_comm, and_comm]

theorem multiEnum_avoids {enum : String} :
    (Stmt.AllAvoid x (s.multiEnum enum).accessor.body.statements ↔
        ((Classification.enumeration .multi enum).accessorNames s.settings).Spare x) ∧
      (Stmt.AllAvoid x (s.multiEnum enum).mutator.body.statements ↔
        ((Classification.enumeration .multi enum).mutatorNames s.settings).Spare x) := by
  constructor <;> simp [multiEnum, and_assoc, and_left_comm, and_comm]

end AccessorSite

namespace FieldInfo

variable {info : FieldInfo} {settings : Settings} {class_ : Classification} {pair : AccessorPair}
  {x : String}

theorem accessors_avoid (classified : info.classification? = some class_)
    (made : info.accessors? settings = some pair) :
    (Stmt.AllAvoid x pair.accessor.body.statements ↔ (class_.accessorNames settings).Spare x) ∧
      (Stmt.AllAvoid x pair.mutator.body.statements ↔ (class_.mutatorNames settings).Spare x) := by
  simp only [accessors?, classified, Option.bind_some] at made
  rcases class_ with ⟨representation, getter⟩ | ⟨_ | _, target⟩ | ⟨_ | _, enum⟩
  · obtain ⟨type, _, rfl⟩ := Option.map_eq_some_iff.1 made
    have spare : (BodyNames.mk [] []).Spare x := ⟨List.forall_mem_nil _, List.forall_mem_nil _⟩
    exact AccessorSite.primitive_avoids.imp (iff_of_true · spare) (iff_of_true · spare)
  all_goals obtain rfl := Option.some.inj made
  · exact AccessorSite.singleRelation_avoids
  · exact AccessorSite.multiRelation_avoids
  · exact AccessorSite.singleEnum_avoids
  · exact AccessorSite.multiEnum_avoids

theorem names_accessors (made : info.accessors? settings = some pair) :
    let param := AccessorSite.param ⟨info, settings⟩
    pair.accessor.ownNames = [settings.receiver] ∧
      pair.mutator.ownNames = [settings.receiver, param] ∧
      pair.mutator.params.map (·.name) = [param] := by
  obtain ⟨class_, classified, made⟩ := Option.bind_eq_some_iff.1 made
  rcases class_ with ⟨representation, getter⟩ | ⟨_ | _, target⟩ | ⟨_ | _, enum⟩
  · obtain ⟨type, _, rfl⟩ := Option.map_eq_some_iff.1 made
    exact ⟨rfl, rfl, rfl⟩
  all_goals
    obtain rfl := Option.some.inj made
    exact ⟨rfl, rfl, rfl⟩

theorem locals_mutatorNames : (class_.mutatorNames settings).locals ⊆ AccessorSite.localNames := by
  rcases class_ with ⟨representation, getter⟩ | ⟨_ | _, target⟩ | ⟨_ | _, enum⟩
  all_goals
    simp only [Classification.mutatorNames]
    decide

-- An accessor is hygienic exactly if the receiver has no name of its body, and a mutator if
-- moreover its parameter is nothing that the body refers to. That the parameter differs from the
-- receiver and from the variables of the body is sure.
theorem accessors_hygienic (classified : info.classification? = some class_)
    (made : info.accessors? settings = some pair) :
    (pair.accessor.Hygienic ↔ (class_.accessorNames settings).Spare settings.receiver) ∧
      (pair.mutator.Hygienic ↔ (class_.mutatorNames settings).Spare settings.receiver ∧
        ∀ p ∈ pair.mutator.params,
          ∀ y ∈ (class_.mutatorNames settings).referents, rootName y ≠ p.name) := by
  obtain ⟨accessor, mutator, params⟩ := names_accessors made
  have avoid (x : String) := @accessors_avoid _ _ _ _ x classified made
  have free : AccessorSite.param ⟨info, settings⟩ ∉ settings.receiver :: AccessorSite.localNames :=
    Naming.unique_not_mem _ _
  obtain ⟨apart, unlike⟩ := not_or.1 fun h => free (List.mem_cons.2 h)
  have undeclared : ∀ y ∈ (class_.mutatorNames settings).locals,
      y ≠ AccessorSite.param ⟨info, settings⟩ :=
    fun y hy same => unlike (same ▸ locals_mutatorNames hy)
  have spare : (class_.mutatorNames settings).Spare (AccessorSite.param ⟨info, settings⟩) ↔
      ∀ p ∈ pair.mutator.params,
        ∀ y ∈ (class_.mutatorNames settings).referents, rootName y ≠ p.name := by
    have named : ∀ p ∈ pair.mutator.params, p.name = AccessorSite.param ⟨info, settings⟩ :=
      fun p hp => List.mem_singleton.1 (params ▸ List.mem_map_of_mem hp)
    obtain ⟨p, hp, -⟩ := List.mem_map.1 (params ▸ List.mem_singleton_self _)
    exact ⟨fun h p hp => (named p hp).symm ▸ h.2, fun h => ⟨undeclared, named p hp ▸ h p hp⟩⟩
  constructor
  · rw [FuncDecl.hygienic_iff, accessor, List.forall_mem_singleton, (avoid _).1]
    exact and_iff_right (List.nodup_singleton _)
  · rw [FuncDecl.hygienic_iff, mutator, List.forall_mem_cons, List.forall_mem_singleton, (avoid _).2,
      (avoid _).2, spare]
    exact and_iff_right (List.nodup_cons.2
      ⟨fun h => apart (List.mem_singleton.1 h).symm, List.nodup_singleton _⟩)

-- The list of an order's items, whose mutator takes `items`.
theorem accessors_hygienic_items :
    let items : FieldInfo :=
      ⟨"Order", { name := "items", type := "[]*Item" }, .proxied (.relation .multi "Item")⟩
    ∃ pair, items.accessors? .standard = some pair ∧ pair.accessor.Hygienic ∧
      pair.mutator.Hygienic := by
  intro items
  let pair := AccessorSite.multiRelation ⟨items, .standard⟩ "Item"
  obtain ⟨accessor, mutator⟩ :=
    @accessors_hygienic items .standard (.relation .multi "Item") pair rfl rfl
  refine ⟨pair, rfl, accessor.2 ?_, mutator.2 ⟨?_, ?_⟩⟩
  all_goals decide +kernel

-- The list `len` of an order's items, whose mutator starts with
-- `records := make([]*core.Record, len(len))`.
theorem parameter_hides_function :
    let schema : Schema :=
      { entities := [{ name := "Order", fields := [{ name := "len", type := "[]*Item" }] },
          { name := "Item", fields := [{ name := "title", type := "string" }] }] }
    ∃ info pair, (Catalog.build schema .standard {}).value.field? "Order" "len" = some info ∧
      info.isProxied ∧ info.accessors? .standard = some pair ∧
      (∃ p ∈ pair.mutator.params, p.name = "len") ∧ pair.mutator.body.RefersTo "len" ∧
      ¬pair.mutator.Hygienic := by
  intro schema
  let info : FieldInfo :=
    ⟨"Order", { name := "len", type := "[]*Item" }, .proxied (.relation .multi "Item")⟩
  let site : AccessorSite := ⟨info, .standard⟩
  let pair := site.multiRelation "Item"
  have found : (Catalog.build schema .standard {}).value.field? "Order" "len" = some info := by
    decide +kernel
  have named : site.param = "len" := by decide +kernel
  have length : (site.length site.value).Within
      (Code.make .nowhere (.slice (.pointer (.named "core.Record"))) [site.length site.value]) :=
    .operand (by simp [Code.make, Code.apply, Expr.operands]) (.self _)
  have refers : pair.mutator.body.RefersTo "len" :=
    .inr ⟨_, ⟨_, ⟨_, List.mem_cons_self .., .self _⟩, _,
      List.mem_cons_of_mem _ (List.mem_singleton_self _), length⟩, List.mem_singleton_self _⟩
  have own : "len" ∈ pair.mutator.ownNames := by
    rw [(@names_accessors info .standard pair rfl).2.1, named]
    exact List.mem_cons_of_mem _ (List.mem_singleton_self _)
  exact ⟨info, pair, found, rfl, rfl, ⟨_, List.mem_singleton_self _, named⟩, refers,
    fun h => h.uncaptured "len" own "len" (.inl refers) (by decide)⟩

end FieldInfo

end FieldAccess
