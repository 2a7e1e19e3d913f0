import FieldAccess.Proofs.MutatorEffects

namespace FieldAccess

mutual

-- All maps that a value refers to have addresses of a certain kind.
def Value.Within (A : Nat → Prop) : Value → Prop
  | .map address => A address
  | .slice items => Value.AllWithin A items
  | _ => True

def Value.AllWithin (A : Nat → Prop) : List Value → Prop
  | [] => True
  | v :: rest => v.Within A ∧ Value.AllWithin A rest

end

section

variable {A : Nat → Prop} {m m' : Machine} {key : String}

mutual

theorem Machine.Near.render (near : m.Near A m') : ∀ {v : Value}, v.Within A → m'.render v = m.render v
  | .nil, _ | .bool _, _ | .int _, _ | .float _, _ | .str _, _ => rfl
  | .slice items, within => by
    rw [Machine.render, Machine.render, near.renderItems within]
  | .map a, within => by
    rw [Machine.render, Machine.render, near.map a within]
  | .record a, _ => by
    rw [Machine.render, Machine.render, near.ids]
  | .object a, _ => by
    rw [Machine.render, Machine.render, Machine.object, near.objects, Machine.object]

theorem Machine.Near.renderItems (near : m.Near A m') :
    ∀ {items : List Value}, Value.AllWithin A items → m'.renderItems items = m.renderItems items
  | [], _ => rfl
  | v :: rest, within => by
    rw [Machine.renderItems, Machine.renderItems, near.render within.1, near.renderItems within.2]

end

-- What a record has under a key that is not written.
structure Record.SameAt (r r' : Record) (key : String) : Prop where
  data : r'.data.get? key = r.data.get? key
  expand : r'.expand.get? key = r.expand.get? key

theorem Record.get?_of_sameAt {r r' : Record} (near : m.Near A m') (same : r.SameAt r' key)
    (within : ∀ v, r.data.get? key = some v → v.Within A) (name : String) :
    Record.get? m' r' name key = Record.get? m r name key := by
  have stored : ((r.data.get? key).getD .nil).Within A := by
    cases h : r.data.get? key with
    | none => trivial
    | some v => exact within v h
  have text : Record.text m' ((r.data.get? key).getD .nil) =
      Record.text m ((r.data.get? key).getD .nil) := by
    unfold Record.text
    split
    · rfl
    · rfl
    · exact near.render stored
  simp only [Record.get?, same.data, same.expand, text]

end

namespace Exec

variable {α β : Type} {A : Nat → Prop} {m m' : Machine} {x : Exec α} {k : α → Exec β} {p : Program}

-- Two runs that end with the same value in machines that are near, or with the same fault.
inductive Ends (A : Nat → Prop) : EStateM.Result ExecFault Machine α →
    EStateM.Result ExecFault Machine α → Prop where
  | ok {a : α} {m m' : Machine} (near : m.Near A m') : Ends A (.ok a m) (.ok a m')
  | error {fault : ExecFault} {m m' : Machine} : Ends A (.error fault m) (.error fault m')

theorem Reads.ends (near : m.Near A m') (h : Reads m m' x) : Ends A (x m) (x m') := by
  rcases h with ⟨a, run, run'⟩ | ⟨fault, run, run'⟩
  · rw [run, run']
    exact .ok near
  · rw [run, run']
    exact .error

theorem Reads.ends_bind (h : Reads m m' x)
    (hk : ∀ a, x m = .ok a m → Ends A (k a m) (k a m')) : Ends A ((x >>= k) m) ((x >>= k) m') := by
  rcases h with ⟨a, run, run'⟩ | ⟨fault, run, run'⟩
  · rw [bind_of_ok run, bind_of_ok run']
    exact hk a run
  · rw [bind_of_error run, bind_of_error run']
    exact .error

theorem Ends.bind (h : Ends A (x m) (x m'))
    (hk : ∀ a m m', m.Near A m' → Ends A (k a m) (k a m')) : Ends A ((x >>= k) m) ((x >>= k) m') := by
  generalize hx : x m = r at h
  generalize hx' : x m' = r' at h
  cases h with
  | ok near =>
    rw [bind_of_ok hx, bind_of_ok hx']
    exact hk _ _ _ near
  | error =>
    rw [bind_of_error hx, bind_of_error hx']
    exact .error

theorem ends_foldlM {step : β → α → Exec β}
    (h : ∀ b a m m', m.Near A m' → Ends A (step b a m) (step b a m')) (near : m.Near A m')
    (as : List α) (b : β) : Ends A (as.foldlM step b m) (as.foldlM step b m') := by
  induction as generalizing b m m' with
  | nil => exact .ok near
  | cons a rest ih =>
    rw [List.foldlM_cons]
    exact (h b a m m' near).bind fun b' m m' near => ih near b'

-- A new object is the same in both machines.
theorem ends_allocObject (near : m.Near A m') (o : Object) :
    Ends A (ofState (Machine.allocObject o) m) (ofState (Machine.allocObject o) m') := by
  change Ends A (.ok (Value.object m.objects.size) { m with objects := m.objects.push o })
    (.ok (Value.object m'.objects.size) { m' with objects := m'.objects.push o })
  rw [near.objects]
  exact .ok ⟨rfl, near.globals, near.ids, near.map, near.tables⟩

theorem ends_setField (near : m.Near A m') (a : Nat) (name : String) (v : Value) :
    Ends A ((modify (·.setField a name v) : Exec Unit) m)
      ((modify (·.setField a name v) : Exec Unit) m') := by
  change Ends A (.ok () (m.setField a name v)) (.ok () (m'.setField a name v))
  refine .ok ⟨?_, near.globals, near.ids, near.map, near.tables⟩
  simp only [Machine.setField, Machine.setObject, Machine.object, near.objects]

theorem address_reads (v : Value) (member : String) : Reads m m' (address v member) := by
  cases v with
  | object address => exact .pure address
  | _ => exact .fail _

theorem ends_wrapItem (near : m.Near A m') (target : String) (items proxies : List Value)
    (pair : Value × Value) :
    Ends A (AccessorSite.wrapItem p target (.slice items) proxies pair m)
      (AccessorSite.wrapItem p target (.slice items) proxies pair m') := by
  refine Ends.bind (ends_allocObject near _) fun blank m m' near => ?_
  refine (setAt_reads _ _ _).ends_bind fun proxies _ => ?_
  refine (item_reads near (fun h => by cases h) _).ends_bind fun o _ => ?_
  refine (address_reads _ _).ends_bind fun a _ => ?_
  refine (item_reads near (fun h => by cases h) _).ends_bind fun rel _ => ?_
  exact Ends.bind (ends_setField near a _ _) fun _ m m' near => .ok near

end Exec

theorem AccessorSite.accessorFrame_without_map {A : Nat → Prop} {a b : Nat} {x : String}
    (h : (⟨[accessorFrame (.object a)]⟩ : Frame).get? x = some (.map b)) : A b := by
  by_cases named : x = "p"
  · subst named
    cases h
  · simp [accessorFrame, Frame.get?_cons, Table.get?_insert, named] at h

section

variable {enums : EnumTable} {info : FieldInfo} {representation getter : String}

theorem FieldInfo.Backed.getter?_eq {settings : Settings}
    (h : info.Backed settings enums (.primitive representation getter)) :
    settings.getter? representation = some getter := by
  generalize hc : Classification.primitive representation getter = class_ at h
  cases h with
  | primitive parsed known =>
    cases hc
    exact known
  | _ => cases hc

theorem getters_reserved : ∀ name ∈
      ["GetBool", "GetInt", "GetFloat", "GetString", "GetDateTime", "GetStringSlice"],
    name ∈ Settings.standard.reserved ∧ name ∉ ["Set", "SetRaw", "SetExpand", "Expand"] := by
  decide

theorem FieldInfo.Backed.getter_mem
    (h : info.Backed .standard enums (.primitive representation getter)) :
    getter ∈ ["GetBool", "GetInt", "GetFloat", "GetString", "GetDateTime", "GetStringSlice"] := by
  have all : ∀ entry ∈ Settings.standard.getters, entry.2 ∈
      ["GetBool", "GetInt", "GetFloat", "GetString", "GetDateTime", "GetStringSlice"] := by decide
  obtain ⟨_, _, listed, _⟩ := List.lookup_eq_some_iff.1 h.getter?_eq
  exact all (representation, getter) (listed ▸ by simp)

end

section

variable {c : Catalog} {enums : EnumTable} {methods : List FuncDecl} {e : EntityFields}
  {info : FieldInfo} {A : Nat → Prop} {m m' : Machine} {a r rounds depth : Nat} {entity : String}

-- A wrapper in two machines in which its record has the same under a key.
structure Machine.SameSide (A : Nat → Prop) (m m' : Machine) (a : Nat) (entity : String) (r : Nat)
    (key : String) : Prop where
  near : m.Near A m'
  wraps : m.Wraps a entity r
  wraps' : m'.Wraps a entity r
  same : (m.record r).SameAt (m'.record r) key
  within : ∀ v, (m.record r).data.get? key = some v → v.Within A

-- What a getter of the record gives.
theorem Catalog.Clean.getter_run (clean : c.Clean .standard enums methods) (wraps : m.Wraps a entity r)
    (call : CallHandler) {name key : String} {v : Value}
    (reserved : name ∈ Settings.standard.reserved)
    (getter : name ∉ ["Set", "SetRaw", "SetExpand", "Expand"])
    (value : Record.get? m (m.record r) name key = some v) :
    Exec.callMethod (c.program .standard enums methods) call (.object a) name [.str key] m =
      .ok [v] m := by
  rw [clean.callMethod_record wraps reserved]
  simp only [List.mem_cons, List.not_mem_nil, or_false, not_or] at getter
  unfold Exec.recordMethod
  split
  · exact absurd rfl getter.1
  · exact absurd rfl getter.2.1
  · exact absurd rfl getter.2.2.1
  · exact absurd rfl getter.2.2.2
  · change (Exec.orFail _ (Record.get? m (m.record r) name key) >>= fun v => pure [v]) m = _
    rw [value]
    rfl

namespace Catalog.Clean

variable (clean : c.Clean .standard enums methods) (side : m.SameSide A m' a entity r info.key)

include clean side

theorem getters_run (call : CallHandler) (name : String) {v : Value}
    (reserved : name ∈ Settings.standard.reserved)
    (getter : name ∉ ["Set", "SetRaw", "SetExpand", "Expand"])
    (value : Record.get? m (m.record r) name info.key = some v) :
    Exec.callMethod (c.program .standard enums methods) call (.object a) name [.str info.key] m =
        .ok [v] m ∧
      Exec.callMethod (c.program .standard enums methods) call (.object a) name [.str info.key] m' =
        .ok [v] m' :=
  ⟨clean.getter_run side.wraps call reserved getter value,
    clean.getter_run side.wraps' call reserved getter
      ((Record.get?_of_sameAt side.near side.same side.within name).trans value)⟩

theorem primitive_ends {getter : String} {type : TypeExpr}
    (known : getter ∈ ["GetBool", "GetInt", "GetFloat", "GetString", "GetDateTime", "GetStringSlice"]) :
    Exec.Ends A
      ((c.program .standard enums methods).invoke rounds (depth + 1)
        (info.site.primitive getter type).accessor (some (.object a)) [] m)
      ((c.program .standard enums methods).invoke rounds (depth + 1)
        (info.site.primitive getter type).accessor (some (.object a)) [] m') := by
  obtain ⟨reserved, other⟩ := getters_reserved getter known
  obtain ⟨v, value⟩ : ∃ v, Record.get? m (m.record r) getter info.key = some v := by
    simp only [List.mem_cons, List.not_mem_nil, or_false] at known
    rcases known with rfl | rfl | rfl | rfl | rfl | rfl <;> exact ⟨_, rfl⟩
  obtain ⟨run, run'⟩ := clean.getters_run side ((c.program .standard enums methods).invoke rounds depth)
    getter reserved other value
  rw [AccessorSite.run_primitive_accessor, run, run']
  exact .ok side.near

theorem singleEnum_ends (enum : String) :
    Exec.Ends A
      ((c.program .standard enums methods).invoke rounds (depth + 1)
        (info.site.singleEnum enum).accessor (some (.object a)) [] m)
      ((c.program .standard enums methods).invoke rounds (depth + 1)
        (info.site.singleEnum enum).accessor (some (.object a)) [] m') := by
  obtain ⟨run, run'⟩ := clean.getters_run side ((c.program .standard enums methods).invoke rounds depth)
    "GetString" (by decide) (by decide) rfl
  rw [AccessorSite.run_singleEnum_accessor clean.plain, bind_assoc, Exec.bind_of_ok run,
    Exec.bind_of_ok run']
  exact ((Exec.lookUpIn_reads side.near AccessorSite.accessorFrame_without_map _).bind
    fun _ _ => .pure _).ends side.near

theorem multiEnum_ends (enum : String) :
    Exec.Ends A
      ((c.program .standard enums methods).invoke rounds (depth + 1)
        (info.site.multiEnum enum).accessor (some (.object a)) [] m)
      ((c.program .standard enums methods).invoke rounds (depth + 1)
        (info.site.multiEnum enum).accessor (some (.object a)) [] m') := by
  obtain ⟨run, run'⟩ := clean.getters_run side ((c.program .standard enums methods).invoke rounds depth)
    "GetStringSlice" (by decide) (by decide) rfl
  rw [AccessorSite.run_multiEnum_accessor clean.plain, bind_assoc, Exec.bind_of_ok run,
    Exec.bind_of_ok run']
  refine ((Exec.guard_reads side.near _ _).bind fun _ _ => ?_).ends side.near
  refine (Exec.itemsOf_reads side.near fun h => by cases h).bind fun pairs _ => ?_
  exact (Exec.lookUpAll_reads side.near AccessorSite.accessorFrame_without_map pairs).bind
    fun _ _ => .pure _

theorem singleRelation_ends (target : String) :
    Exec.Ends A
      ((c.program .standard enums methods).invoke rounds (depth + 1)
        (info.site.singleRelation target).accessor (some (.object a)) [] m)
      ((c.program .standard enums methods).invoke rounds (depth + 1)
        (info.site.singleRelation target).accessor (some (.object a)) [] m') := by
  obtain ⟨run, run'⟩ := clean.getters_run side ((c.program .standard enums methods).invoke rounds depth)
    "ExpandedOne" (by decide) (by decide) rfl
  rw [AccessorSite.run_singleRelation_accessor, bind_assoc, Exec.bind_of_ok run,
    Exec.bind_of_ok run', show Exec.oneResult [_] = pure _ from rfl, pure_bind]
  split
  · exact .ok side.near
  · exact Exec.Ends.bind (Exec.ends_allocObject side.near _) fun _ _ _ near => .ok near

theorem multiRelation_ends (target : String) :
    Exec.Ends A
      ((c.program .standard enums methods).invoke rounds (depth + 1)
        (info.site.multiRelation target).accessor (some (.object a)) [] m)
      ((c.program .standard enums methods).invoke rounds (depth + 1)
        (info.site.multiRelation target).accessor (some (.object a)) [] m') := by
  obtain ⟨run, run'⟩ := clean.getters_run side ((c.program .standard enums methods).invoke rounds depth)
    "ExpandedAll" (by decide) (by decide) rfl
  rw [AccessorSite.run_multiRelation_accessor clean.plain, bind_assoc, Exec.bind_of_ok run,
    Exec.bind_of_ok run', show Exec.oneResult [_] = pure _ from rfl, pure_bind]
  refine (Exec.guard_reads side.near _ _).ends_bind fun _ _ => ?_
  refine (Exec.lengthIn_reads side.near fun h => by cases h).ends_bind fun count _ => ?_
  refine (Exec.itemsOf_reads side.near fun h => by cases h).ends_bind fun pairs _ => ?_
  refine Exec.Ends.bind (Exec.ends_foldlM (fun proxies pair m m' near => ?_) side.near pairs _)
    fun _ _ _ near => .ok near
  exact Exec.ends_wrapItem near target _ proxies pair

omit side in
theorem accessor_ends (he : e ∈ c.entities) (hi : info ∈ e.fields) (proxied : info.isProxied)
    (side : m.SameSide A m' a e.name r info.key) :
    Exec.Ends A
      ((c.program .standard enums methods).callMethod rounds (.object a) info.accessor [] m)
      ((c.program .standard enums methods).callMethod rounds (.object a) info.accessor [] m') := by
  obtain ⟨class_, hc⟩ := FieldInfo.isProxied_iff.1 proxied
  have backed := (clean.built.fields e he).backed info hi class_ hc
  obtain ⟨pair, found, _⟩ := FieldInfo.accessors?_of_backed hc backed
  rw [(clean.callMethod_accessors he hi side.wraps found).1,
    (clean.callMethod_accessors he hi side.wraps' found).1]
  rcases FieldInfo.accessors?_cases found with ⟨_, getter, type, hc', _, rfl⟩ | ⟨target, _, rfl⟩ |
    ⟨target, _, rfl⟩ | ⟨enum, _, rfl⟩ | ⟨enum, _, rfl⟩
  · obtain rfl := Option.some.inj (hc.symm.trans hc')
    exact clean.primitive_ends side backed.getter_mem
  · exact clean.singleRelation_ends side target
  · exact clean.multiRelation_ends side target
  · exact clean.singleEnum_ends side enum
  · exact clean.multiEnum_ends side enum

end Catalog.Clean

end

-- All maps that package variables hold exist.
def Machine.TablesExist (m : Machine) : Prop :=
  ∀ x a, m.globals.get? x = some (.map a) → a < m.maps.size

-- A record as running code leaves it: no relation is there twice, and the maps in its data exist.
structure Machine.Intact (m : Machine) (r : Nat) : Prop where
  distinct : (m.record r).expand.Distinct
  within : ∀ {key v}, (m.record r).data.get? key = some v → v.Within (· < m.maps.size)

theorem Machine.TablesExist.of_keeps {m m' : Machine} (h : m.TablesExist) (keeps : m.Keeps m') :
    m'.TablesExist := fun x a found =>
  Nat.lt_of_lt_of_le (h x a (keeps.globals ▸ found)) keeps.mapsLe

section

variable {p : Program} {call : CallHandler} {f : Frame} {span : Span} {m m' : Machine} {v : Value}
  {rounds : Nat}

-- The parts of an entry of a literal only read.
def Code.Quiet (p : Program) (call : CallHandler) (f : Frame) (pair : Expr × Expr) : Prop :=
  ∀ m, Exec.Reads m m (Exec.eval p call f pair.1) ∧ Exec.Reads m m (Exec.eval p call f pair.2)

theorem Code.mapEntries_reads {pairs : List (Expr × Expr)}
    (quiet : ∀ pair ∈ pairs, Quiet p call f pair) (t : Table MapKey) : Exec.Reads m m
      (Exec.mapEntries t (Exec.entries p call f (pairs.map fun pair => .keyed pair.1 pair.2))) := by
  induction pairs generalizing t with
  | nil => exact .pure t
  | cons pair rest ih =>
    obtain ⟨key, value⟩ := quiet pair (List.mem_cons_self ..) m
    rw [List.map_cons, Exec.entries, Exec.mapEntries]
    refine Exec.Reads.bind (.pure _) fun _ _ => key.bind fun _ _ =>
      Exec.Reads.bind (.orFail _ _) fun _ _ => value.bind fun _ _ => ?_
    exact ih (fun pair mem => quiet pair (List.mem_cons_of_mem _ mem)) _

theorem Code.eval_table_ok {key element : TypeExpr} {pairs : List (Expr × Expr)}
    (quiet : ∀ pair ∈ pairs, Quiet p call f pair)
    (run : Exec.eval p call f (table span (.map key element) pairs) m = .ok v m') :
    ∃ t, v = .map m.maps.size ∧ m' = { m with maps := m.maps.push t } := by
  rw [table, Exec.eval, Exec.mapLiteral] at run
  obtain ⟨t, _, run⟩ := (mapEntries_reads quiet .empty).ok_bind run
  obtain ⟨same, same'⟩ := Prod.mk.inj (Exec.ok_ofState.1 run)
  exact ⟨t, same.symm, same'.symm⟩

theorem Program.loadVariables_tables {ds : List Decl}
    (literal : ∀ x e, .var x e ∈ ds → ∀ m v m',
      Exec.eval p (p.invoke rounds maxDepth) (.ofTable .empty) e m = .ok v m' →
      ∃ t, v = .map m.maps.size ∧ m' = { m with maps := m.maps.push t })
    (tables : m.TablesExist) (run : p.loadVariables rounds ds m = .ok () m') : m'.TablesExist := by
  induction ds generalizing m with
  | nil => exact (Exec.ok_pure.1 run).2 ▸ tables
  | cons d rest ih =>
    have later {m : Machine} (tables : m.TablesExist) :=
      ih (m := m) (fun x e mem => literal x e (List.mem_cons_of_mem _ mem)) tables
    cases d with
    | var x e =>
      rw [loadVariables] at run
      obtain ⟨v, m₁, value, run⟩ := Exec.ok_bind.1 run
      obtain ⟨t, rfl, rfl⟩ := literal x e (List.mem_cons_self ..) _ _ _ value
      refine later (fun y a found => ?_) run
      have size : m.maps.size < (m.maps.push t).size := by simp
      rcases ite_eq_iff.1 ((Table.get?_insert ..).symm.trans found) with ⟨_, new⟩ | ⟨_, old⟩
      · exact Value.map.inj (Option.some.inj new) ▸ size
      · exact Nat.lt_trans (tables y a old) size
    | _ => exact later tables run

-- A package variable that is not declared stays as it was.
theorem Program.loadVariables_others {ds : List Decl} {x : String}
    (literal : ∀ x e, .var x e ∈ ds → ∀ m v m',
      Exec.eval p (p.invoke rounds maxDepth) (.ofTable .empty) e m = .ok v m' →
      ∃ t, v = .map m.maps.size ∧ m' = { m with maps := m.maps.push t })
    (other : ∀ e, .var x e ∉ ds) (run : p.loadVariables rounds ds m = .ok () m') :
    m'.globals.get? x = m.globals.get? x := by
  induction ds generalizing m with
  | nil => rw [(Exec.ok_pure.1 run).2]
  | cons d rest ih =>
    have later {m : Machine} (run : p.loadVariables rounds rest m = .ok () m') :=
      ih (m := m) (fun x e mem => literal x e (List.mem_cons_of_mem _ mem))
        (fun e mem => other e (List.mem_cons_of_mem _ mem)) run
    cases d with
    | var y e =>
      rw [loadVariables] at run
      obtain ⟨v, m₁, value, run⟩ := Exec.ok_bind.1 run
      obtain ⟨t, rfl, rfl⟩ := literal y e (List.mem_cons_self ..) _ _ _ value
      refine (later run).trans ((Table.get?_insert ..).trans (if_neg fun same => ?_))
      exact other e (same ▸ List.mem_cons_self ..)
    | _ => exact later run

-- The package variables of a program hold new maps.
theorem Catalog.eval_var_ok {c : Catalog} {settings : Settings} {enums : EnumTable}
    {methods : List FuncDecl} {x : String} {e : Expr}
    (mem : .var x e ∈ (c.program settings enums methods).declarations)
    (run : Exec.eval p call f e m = .ok v m') :
    ∃ t, v = .map m.maps.size ∧ m' = { m with maps := m.maps.push t } := by
  obtain ⟨entry, _, _, hd⟩ := var_cases mem
  have quiet (label const : String) (m : Machine) {call : CallHandler} {f : Frame} {span : Span}
      {p : Program} : Exec.Reads m m (Exec.eval p call f (Code.text span label)) ∧
        Exec.Reads m m (Exec.eval p call f (Code.ident span const)) :=
    ⟨.pure _, (Exec.binding_reads (.refl m) const).bind fun _ _ => .orFail _ _⟩
  simp only [EnumEntry.declarations, List.mem_cons, List.not_mem_nil, or_false, reduceCtorEq,
    false_or, Decl.var.injEq] at hd
  rcases hd with ⟨_, rfl⟩ | ⟨_, rfl⟩ <;> refine Code.eval_table_ok (fun pair mem m => ?_) run
  · obtain ⟨⟨label, const⟩, _, rfl⟩ := List.mem_map.1 mem
    exact quiet label const m
  · obtain ⟨⟨label, const⟩, _, rfl⟩ := List.mem_map.1 mem
    exact (quiet label const m).symm

-- After loading, the maps of all package variables exist.
theorem Catalog.load_tables {c : Catalog} {enums : EnumTable} {methods : List FuncDecl}
    (run : (c.program .standard enums methods).load rounds {} = .ok () m) : m.TablesExist := by
  rw [Program.load, Exec.bind_of_ok (Program.loadAllConstants_run _ _)] at run
  refine Program.loadVariables_tables (fun _ _ mem _ _ _ eval => eval_var_ok mem eval)
    (fun x a found => ?_) run
  rcases Table.get?_insertAll_cases found with mem | none
  · obtain ⟨entry, _, hc⟩ := constants_cases mem
    obtain ⟨_, _, h⟩ := EnumEntry.mem_constants.1 hc
    cases h
  · cases none

-- After loading, a name that no table is declared under is that of a constant, or free.
theorem Catalog.load_others {c : Catalog} {settings : Settings} {enums : EnumTable}
    {methods : List FuncDecl} {x : String}
    (run : (c.program settings enums methods).load rounds {} = .ok () m)
    (other : ∀ e, .var x e ∉ (c.program settings enums methods).declarations) :
    m.globals.get? x = (Table.empty.insertAll
      ((c.program settings enums methods).declarations.flatMap Decl.constants)).get? x := by
  rw [Program.load, Exec.bind_of_ok (Program.loadAllConstants_run _ _)] at run
  exact Program.loadVariables_others (fun _ _ mem _ _ _ eval => eval_var_ok mem eval) other run

theorem Catalog.load_names {c : Catalog} {enums : EnumTable} {methods : List FuncDecl} {x : String}
    (run : (c.program .standard enums methods).load rounds {} = .ok () m)
    (start : x.toList.head? ≠ some 'z') :
    m.globals.get? x = (Table.empty.insertAll
      ((c.program .standard enums methods).declarations.flatMap Decl.constants)).get? x := by
  refine load_others run fun e mem => start ?_
  obtain ⟨_, _, rfl | rfl⟩ := table_of_var mem <;>
    simp [Settings.nameTable, Settings.ordinalTable, Settings.standard]

end

namespace Machine.WritesKey

variable {m m' : Machine} {r : Nat} {key : String} {relation : Prop}
  (writes : m.WritesKey m' r key relation)

include writes

theorem near (tables : m.TablesExist) : m.Near (· < m.maps.size) m' where
  objects := writes.objects
  globals := writes.globals
  map := writes.map
  tables := tables _ _
  ids b := by
    by_cases self : b = r
    · rw [self, writes.id]
    · rw [writes.others b self]

theorem sameAt {other : String} (ne : other ≠ key) : (m.record r).SameAt (m'.record r) other where
  data := by
    obtain ⟨v, h⟩ := writes.data
    rw [h, Table.get?_insert, if_neg ne]
  expand := by
    rcases writes.expand with h | ⟨_, w, h⟩
    · rw [h]
    · rw [h, Table.get?_insert, if_neg ne]

theorem sameSide {a : Nat} {entity other : String} (tables : m.TablesExist) (intact : m.Intact r)
    (wraps : m.Wraps a entity r) (ne : other ≠ key) :
    m.SameSide (· < m.maps.size) m' a entity r other where
  near := writes.near tables
  wraps := wraps
  wraps' := wraps.of_objects writes.objects writes.records
  same := writes.sameAt ne
  within _ := intact.within

end Machine.WritesKey

-- The values of a primitive type that a record keeps and gives back as they are.
inductive Value.IsOf : String → Value → Prop where
  | bool (b : Bool) : IsOf "bool" (.bool b)
  | int (n : Int64) : IsOf "int" (.int n)
  | string (s : String) : IsOf "string" (.str s)
  | strings (ss : List String) : IsOf "[]string" (.slice (ss.map .str))

section

variable {c : Catalog} {enums : EnumTable} {methods : List FuncDecl} {e : EntityFields}
  {info : FieldInfo} {m : Machine} {a r rounds : Nat} {representation getter : String} {v : Value}

-- The getter of a type reads what was stored for a value of the type.
theorem Record.get?_of_isOf {r : Record} {key : String} (is_of : v.IsOf representation)
    (known : Settings.standard.getter? representation = some getter)
    (stored : r.data.get? key = some v) : Record.get? m r getter key = some v := by
  cases is_of <;> obtain rfl := Option.some.inj known.symm <;>
    simp only [Record.get?, stored, Option.getD_some] <;> rfl

theorem Catalog.Clean.primitive_round_trip (clean : c.Clean .standard enums methods)
    (he : e ∈ c.entities) (hi : info ∈ e.fields)
    (class_ : info.classification? = some (.primitive representation getter))
    (wraps : m.Wraps a e.name r) (is_of : v.IsOf representation) :
    (c.program .standard enums methods).callMethod rounds (.object a) info.mutator [v] m =
        .ok [] (m.store r info.key v) ∧
      (c.program .standard enums methods).callMethod rounds (.object a) info.accessor []
        (m.store r info.key v) = .ok [v] (m.store r info.key v) := by
  have backed := (clean.built.fields e he).backed info hi _ class_
  obtain ⟨pair, found, _⟩ := FieldInfo.accessors?_of_backed class_ backed
  obtain ⟨type, chosen⟩ : ∃ type, pair = info.site.primitive getter type := by
    rw [FieldInfo.accessors?, class_] at found
    obtain ⟨type, _, h⟩ := Option.map_eq_some_iff.1 found
    exact ⟨type, h.symm⟩
  subst chosen
  obtain ⟨reserved, other⟩ := getters_reserved getter backed.getter_mem
  have wraps' : (m.store r info.key v).Wraps a e.name r :=
    wraps.of_objects rfl (Machine.records_size_store ..)
  have stored : ((m.store r info.key v).record r).data.get? info.key = some v := by
    rw [Machine.record_store wraps.exist, if_pos rfl]
    exact Table.get?_insert_self ..
  rw [(clean.callMethod_accessors he hi wraps found).2,
    (clean.callMethod_accessors he hi wraps' found).1, Program.maxDepth_eq,
    AccessorSite.run_primitive_mutator, AccessorSite.run_primitive_accessor]
  exact ⟨Exec.bind_of_ok ((clean.callMethod_record wraps (by decide)).trans rfl) _,
    clean.getter_run wraps' _ reserved other (Record.get?_of_isOf is_of backed.getter?_eq stored)⟩

end

-- A mutator changes what the record has under the key of its field, so accessors of fields with other
-- keys end as they would have: with the same fault, or with the same values and the same objects.
theorem Run.mutators_write_one_key {schema : Schema} {g : Generated} {rounds : Nat} {m₀ : Machine}
    (ok : (Run.ofSchema schema .standard []).result = .ok g)
    (load : g.program.load rounds {} = .ok () m₀) :
    ∀ e ∈ (Catalog.build schema .standard {}).value.entities, ∀ f ∈ e.fields, f.isProxied →
      ∀ m a r, m₀.Keeps m → m.Wraps a e.name r → m.Intact r →
        (∀ args vs m', g.program.callMethod rounds (.object a) f.mutator args m = .ok vs m' →
          m.WritesKey m' r f.key f.IsRelation ∧
          ∀ other ∈ e.fields, other.isProxied → other.key ≠ f.key →
            Exec.Ends (· < m.maps.size)
              (g.program.callMethod rounds (.object a) other.accessor [] m)
              (g.program.callMethod rounds (.object a) other.accessor [] m')) ∧
        ∀ type getter v, f.classification? = some (.primitive type getter) → v.IsOf type →
          ∃ m', g.program.callMethod rounds (.object a) f.mutator [v] m = .ok [] m' ∧
            g.program.callMethod rounds (.object a) f.accessor [] m' = .ok [v] m' := by
  obtain ⟨clean, program, _⟩ := ofSchema_ok ok
  rw [program] at load ⊢
  intro e he f hf proxied m a r keeps wraps intact
  have tables : m.TablesExist := (Catalog.load_tables load).of_keeps keeps
  refine ⟨fun args vs m' run => ?_, fun type getter v class_ is_of => ?_⟩
  · obtain ⟨_, writes⟩ := clean.mutator_writes he hf proxied wraps intact.distinct run
    exact ⟨writes, fun other ho proxied' ne =>
      clean.accessor_ends he ho proxied' (writes.sameSide tables intact wraps ne)⟩
  · exact ⟨_, clean.primitive_round_trip he hf class_ wraps is_of⟩

theorem Run.mutators_write_one_key_order_count :
    ∃ (g : Generated) (m₀ m m' : Machine) (f : FieldInfo),
      (Run.ofSchema Schema.shop .standard []).result = .ok g ∧ g.program.load 0 {} = .ok () m₀ ∧
      f.name = "count" ∧ m.Wraps 0 "Order" 0 ∧
      g.program.callMethod 0 (.object 0) f.mutator [.int 7] m = .ok [] m' ∧
      m.WritesKey m' 0 f.key f.IsRelation ∧
      g.program.callMethod 0 (.object 0) f.accessor [] m' = .ok [.int 7] m' := by
  obtain ⟨g, ok⟩ := Run.shop_ok
  obtain ⟨_, program, _⟩ := Run.ofSchema_ok ok
  obtain ⟨m₀, load, _⟩ := Catalog.load_run (Catalog.build Schema.shop .standard {}).value [] 0
    (Catalog.sound_enums_build Schema.shop .standard) (Catalog.entries_build Schema.shop_implicit)
  rw [← program] at load
  obtain ⟨e, he, order, f, hf, named, class_⟩ :
      ∃ e ∈ (Catalog.build Schema.shop .standard {}).value.entities, e.name = "Order" ∧
        ∃ f ∈ e.fields, f.name = "count" ∧
          f.classification? = some (.primitive "int" "GetInt") := by decide +kernel
  have proxied : f.isProxied := FieldInfo.isProxied_iff.2 ⟨_, class_⟩
  let m : Machine := { m₀ with
    records := #[⟨"r1", "orders", .empty, .empty⟩]
    objects := #[⟨"Order", .ofList [(recordField, .record 0)]⟩] }
  have wraps : m.Wraps 0 e.name 0 := ⟨order.symm, rfl, Nat.zero_lt_one⟩
  have intact : m.Intact 0 := ⟨.nil, nofun⟩
  obtain ⟨writes, round_trip⟩ := Run.mutators_write_one_key ok load e he f hf proxied m 0 0
    ⟨rfl, Nat.le_refl _, fun _ _ => rfl⟩ wraps intact
  obtain ⟨m', set, get⟩ := round_trip "int" "GetInt" (.int 7) class_ (.int 7)
  exact ⟨g, m₀, m, m', f, ok, load, named, order ▸ wraps, set, (writes [.int 7] [] m' set).1, get⟩

end FieldAccess
