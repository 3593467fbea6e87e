import PropBench.Proofs.Symbols.Extension
import PropBench.Symbols.Store

/-!
# Proofs — Symbols — Store

A store shows the same as a table.  Of the slots no more is used than that a value is put under a
key that is not in use, and found there from then on (`SlotMap.Lawful`).

* `Store.Coupled`: the three parts of a store agree.  Every declaration keeps this
  (`Store.Coupled.declare`).
* `Store.Refines`: whatever a store is asked, it answers as a table.
* `Table.Holds`: a table holds the first definition of each name, in order.
* `Store.declareAll_refines`: a store and a table after the same declarations.
-/

namespace PropBench

/-! ### Slots -/

/-- What is relied on: a value gets a key that is not in use, the values under all other keys stay,
and the size is the number of keys in use. -/
structure SlotMap.Lawful {Slots Key α : Type} (slots : SlotMap Slots Key α) : Prop where
  get?_empty : ∀ key, slots.get? slots.empty key = none
  get?_new : ∀ m a, slots.get? m (slots.insert m a).1 = none
  get?_insert_self : ∀ m a, slots.get? (slots.insert m a).2 (slots.insert m a).1 = some a
  get?_insert_of_ne : ∀ m a key, key ≠ (slots.insert m a).1 →
    slots.get? (slots.insert m a).2 key = slots.get? m key
  encard_inUse : ∀ m, {key | (slots.get? m key).isSome = true}.encard = slots.size m
  isEmpty_iff : ∀ m, slots.isEmpty m = true ↔ slots.size m = 0

/-- The keys in use are those of the slots up to the last one filled. -/
theorem SlotMap.growing_inUse {α : Type} (m : Array α) (key : SlotKey) :
    ((growing α).get? m key).isSome = true ↔
      key ∈ (List.range m.size).map fun i => (⟨i + 1, 1⟩ : SlotKey) := by
  obtain ⟨index, version⟩ := key
  simp only [growing, List.mem_map, List.mem_range, SlotKey.mk.injEq]
  constructor
  · intro h
    split at h
    · next hkey =>
        have hlt : index - 1 < m.size := by simpa using h
        exact ⟨index - 1, hlt, by omega, hkey.2.symm⟩
    · cases h
  · rintro ⟨i, hi, rfl, rfl⟩
    simpa using hi

/-- The map that only grows is lawful, as it gives out its keys in order. -/
theorem SlotMap.growing_lawful (α : Type) : (growing α).Lawful where
  get?_empty key := by simp [growing]
  get?_new m a := by simp [growing]
  get?_insert_self m a := by simp [growing]
  get?_insert_of_ne m a key h := by
    obtain ⟨index, version⟩ := key
    simp only [growing, ne_eq, SlotKey.mk.injEq] at h ⊢
    split
    · next hkey => rw [Array.getElem?_push, if_neg (by omega)]
    · rfl
  encard_inUse m := by
    have hinj : Function.Injective fun i => (⟨i + 1, 1⟩ : SlotKey) := fun i j h => by
      simpa using h
    simp only [growing_inUse]
    rw [encard_setOf_mem (List.nodup_range.map hinj), List.length_map, List.length_range]
    rfl
  isEmpty_iff m := by simp [growing]

/-! ### Tables -/

namespace Table

variable {space : Namespace} {α : Type} {t : Table space α} {name : String} {a : α}

/-- The table after a declaration, which changes nothing if it fails. -/
def after (t : Table space α) (name : String) (a : α) : Table space α :=
  match t.declare name a with
  | .ok (_, u) => u
  | .error _ => t

theorem after_of_contains (h : t.contains name = true) : t.after name a = t := by
  rw [after, declare_eq_error_iff.mpr ⟨h, rfl⟩]

theorem after_of_not_contains (h : t.contains name = false) :
    t.after name a = ⟨t.entries ++ [(name, a)]⟩ := by
  rw [after, declare_of_contains h]

/-- The table after declarations, one after the other. -/
def declareAll (t : Table space α) (calls : List (String × α)) : Table space α :=
  calls.foldl (fun t c => t.after c.1 c.2) t

/-- With distinct names, an entry is the meaning of its name. -/
theorem find?_of_mem (hn : t.names.Nodup) (h : (name, a) ∈ t.entries) : t.find? name = some a := by
  obtain ⟨before, after, he⟩ := List.append_of_mem h
  have hnot : (⟨before⟩ : Table space α).find? name = none := by
    rw [names, he, List.map_append, List.map_cons] at hn
    have hmem : name ∉ before.map (·.1) := fun hmem =>
      (List.disjoint_of_nodup_append hn hmem) List.mem_cons_self
    rw [← Option.not_isSome_iff_eq_none]
    exact fun hsome => hmem (contains_iff.mp hsome)
  have hfind := find?_append (⟨before⟩ : Table space α) ((name, a) :: after) name
  rw [hnot, Option.none_or, ← he] at hfind
  rw [hfind]
  simp [find?]

/-- The first meaning of a name stays. -/
theorem find?_after (t : Table space α) (name : String) (a : α) (n : String) :
    (t.after name a).find? n = (t.find? n).or (if n = name then some a else none) := by
  cases h : t.contains name with
  | true =>
      rw [after_of_contains h]
      split
      · next e =>
          subst e
          obtain ⟨b, hb⟩ := Option.isSome_iff_exists.mp h
          rw [hb]
          rfl
      · rw [Option.or_none]
  | false =>
      rw [after_of_not_contains h, find?_append]
      congr 1
      by_cases e : n = name <;> simp [find?, e, Ne.symm]

/-- The first of the declarations of a name gives its meaning. -/
theorem find?_declareAll (t : Table space α) (calls : List (String × α)) (n : String) :
    (t.declareAll calls).find? n =
      (t.find? n).or ((calls.find? fun c => c.1 == n).map (·.2)) := by
  induction calls generalizing t with
  | nil => simp [declareAll]
  | cons c calls ih =>
      rw [declareAll, List.foldl_cons, ← declareAll, ih, find?_after, Option.or_assoc,
        List.find?_cons]
      congr 1
      by_cases e : c.1 = n
      · simp [e]
      · simp [beq_false_of_ne e, Ne.symm e]

/-- A name is added once. -/
theorem names_after (t : Table space α) (name : String) (a : α) :
    (t.after name a).names = if name ∈ t.names then t.names else t.names ++ [name] := by
  split
  · next hmem => rw [after_of_contains (contains_iff.mpr hmem)]
  · next hmem =>
      rw [after_of_not_contains (Bool.eq_false_iff.mpr (mt contains_iff.mp hmem))]
      exact List.map_append

/-- The names are those declared, in the order of their first declarations. -/
theorem names_declareAll (calls : List (String × α)) :
    (declareAll ({} : Table space α) calls).names = (calls.map (·.1)).eraseDups := by
  induction calls using List.reverseRecOn with
  | nil => rfl
  | append_singleton calls c ih =>
      rw [declareAll, List.foldl_append, List.foldl_cons, List.foldl_nil, ← declareAll, names_after,
        ih, List.map_append, List.map_singleton, eraseDups_append_singleton]
      simp only [List.mem_eraseDups]

/-- The table holds what has been declared: each name once, in the order of first declaration, with
the first definition that was given to it. -/
structure Holds (t : Table space α) (calls : List (String × α)) : Prop where
  /-- A name means what it was first declared as, and nothing if it was not declared. -/
  resolve : ∀ n, t.resolve n =
    match calls.find? fun c => c.1 == n with
    | some c => .ok c.2
    | none => .error (.unknown space n)
  names : t.names = (calls.map (·.1)).eraseDups
  entries : ∀ e ∈ t.entries, calls.find? (fun c => c.1 == e.1) = some e

/-- The table holds what the declarations call for. -/
theorem holds_declareAll (calls : List (String × α)) :
    (declareAll ({} : Table space α) calls).Holds calls := by
  have hfind : ∀ n, (declareAll ({} : Table space α) calls).find? n =
      (calls.find? fun c => c.1 == n).map (·.2) := find?_declareAll {} calls
  have hnames : (declareAll ({} : Table space α) calls).names = (calls.map (·.1)).eraseDups :=
    names_declareAll calls
  refine ⟨fun n => ?_, hnames, fun e he => ?_⟩
  · rw [Table.resolve, hfind]
    cases calls.find? fun c => c.1 == n <;> rfl
  · have hnodup : (declareAll ({} : Table space α) calls).names.Nodup :=
      hnames ▸ nodup_eraseDups _
    have hmeaning := find?_of_mem hnodup (show (e.1, e.2) ∈ _ from he)
    rw [hfind] at hmeaning
    obtain ⟨c, hc, hdefinition⟩ := Option.map_eq_some_iff.mp hmeaning
    have hname := List.find?_some hc
    rw [hc, Prod.ext (beq_iff_eq.mp hname) hdefinition]

end Table

/-! ### Stores -/

namespace Store

variable {Slots Key α : Type} {space : Namespace} {slots : SlotMap Slots Key α}
  {s : Store space slots} {name : String} {a : α} {key : Key}

/-- The parts of a store agree: the map of names and the list in order hold the same distinct names
with the same distinct keys, and these are the keys in use. -/
structure Coupled (s : Store space slots) : Prop where
  names_nodup : (s.order.map Prod.fst).Nodup
  keys_nodup : (s.order.map Prod.snd).Nodup
  names_iff : ∀ n key, s.names n = some key ↔ (n, key) ∈ s.order
  inUse_iff : ∀ key, (slots.get? s.definitions key).isSome = true ↔ key ∈ s.order.map Prod.snd

theorem Coupled.empty (h : slots.Lawful) : ({} : Store space slots).Coupled where
  names_nodup := List.nodup_nil
  keys_nodup := List.nodup_nil
  names_iff n key := by simp
  inUse_iff key := by simp [h.get?_empty]

/-- A name is in the store if it is in the order of names. -/
theorem Coupled.contains_iff (hs : s.Coupled) :
    s.contains name = true ↔ name ∈ s.order.map Prod.fst := by
  rw [contains, Option.isSome_iff_exists, List.mem_map]
  simp only [hs.names_iff]
  constructor
  · rintro ⟨key, hmem⟩
    exact ⟨(name, key), hmem, rfl⟩
  · rintro ⟨⟨n, key⟩, hmem, rfl⟩
    exact ⟨key, hmem⟩

/-- The key of a new definition is not in use. -/
theorem Coupled.new_notMem (h : slots.Lawful) (hs : s.Coupled) (name : String) (a : α) :
    (s.add name a).1 ∉ s.order.map Prod.snd := by
  rw [← hs.inUse_iff]
  simp [add, h.get?_new]

/-- A definition that is added keeps order and slots in step. -/
theorem Coupled.add (h : slots.Lawful) (hs : s.Coupled) (hn : s.contains name = false) (a : α) :
    (s.add name a).2.Coupled := by
  have hname : name ∉ s.order.map Prod.fst := by
    rw [← hs.contains_iff, hn]
    exact Bool.false_ne_true
  have hkey := hs.new_notMem h name a
  have horder : (s.add name a).2.order = s.order ++ [(name, (s.add name a).1)] := rfl
  refine ⟨?_, ?_, fun n key => ?_, fun key => ?_⟩
  · rw [horder, List.map_append, List.map_singleton, List.nodup_append_comm]
    exact List.nodup_cons.mpr ⟨hname, hs.names_nodup⟩
  · rw [horder, List.map_append, List.map_singleton, List.nodup_append_comm]
    exact List.nodup_cons.mpr ⟨hkey, hs.keys_nodup⟩
  · -- The new key is that of the new name, and no other name has it.
    show (if n = name then some (s.add name a).1 else s.names n) = some key ↔ _
    rw [horder, List.mem_append, List.mem_singleton, Prod.mk.injEq, ← hs.names_iff]
    split
    · next e =>
        subst e
        have hnone : s.names n = none := Option.not_isSome_iff_eq_none.mp (ne_true_of_eq_false hn)
        simp [hnone, eq_comm]
    · next e => simp [e]
  · show (slots.get? (slots.insert s.definitions a).2 key).isSome = true ↔ _
    rw [horder, List.map_append, List.map_singleton, List.mem_append, List.mem_singleton,
      ← hs.inUse_iff]
    by_cases e : key = (slots.insert s.definitions a).1
    · subst e
      simp [h.get?_insert_self, Store.add]
    · rw [h.get?_insert_of_ne _ _ _ e]
      exact (or_iff_left e).symm

/-- A name that is taken fails, and changes nothing. -/
theorem declare_of_contains (hn : s.contains name = true) (a : α) :
    s.declare name a = (.error (.duplicate space name), s) := if_pos hn

theorem declare_of_not_contains (hn : s.contains name = false) (a : α) :
    s.declare name a = (.ok (s.add name a).1, (s.add name a).2) :=
  if_neg (ne_true_of_eq_false hn)

/-- A declaration keeps order and slots in step, whether it fails or not. -/
theorem Coupled.declare (h : slots.Lawful) (hs : s.Coupled) (name : String) (a : α) :
    (s.declare name a).2.Coupled := by
  cases hn : s.contains name with
  | true => rw [declare_of_contains hn]; exact hs
  | false => rw [declare_of_not_contains hn]; exact hs.add h hn a

/-! ### What a store shows -/

/-- Every key in the order has a definition. -/
theorem Coupled.exists_definition (hs : s.Coupled) {e : String × Key} (he : e ∈ s.order) :
    ∃ a, slots.get? s.definitions e.2 = some a :=
  Option.isSome_iff_exists.mp ((hs.inUse_iff e.2).mpr (List.mem_map_of_mem he))

/-- Every declared name is listed: none of the keys is out of use. -/
theorem Coupled.map_fst_list (hs : s.Coupled) : s.list.map Prod.fst = s.order.map Prod.fst := by
  have hall : ∀ es ⊆ s.order,
      (es.filterMap fun e => (slots.get? s.definitions e.2).map (e.1, ·)).map Prod.fst =
        es.map Prod.fst := fun es hes => by
    induction es with
    | nil => rfl
    | cons e es ih =>
        obtain ⟨he, hes⟩ := List.cons_subset.mp hes
        obtain ⟨a, ha⟩ := hs.exists_definition he
        rw [List.filterMap_cons, ha, Option.map_some, List.map_cons, List.map_cons, ih hes]
  exact hall s.order fun _ h => h

/-- A declaration puts its name and definition at the end of the list. -/
theorem Coupled.list_add (h : slots.Lawful) (hs : s.Coupled) (name : String) (a : α) :
    (s.add name a).2.list = s.list ++ [(name, a)] := by
  have hnew : slots.get? (s.add name a).2.definitions (s.add name a).1 = some a :=
    h.get?_insert_self s.definitions a
  have hold : ∀ e ∈ s.order,
      slots.get? (s.add name a).2.definitions e.2 = slots.get? s.definitions e.2 := fun e he =>
    h.get?_insert_of_ne _ _ _ fun heq =>
      hs.new_notMem h name a (heq ▸ List.mem_map_of_mem he)
  have hlast : [(name, (s.add name a).1)].filterMap (fun e =>
      (slots.get? (s.add name a).2.definitions e.2).map (e.1, ·)) = [(name, a)] := by simp [hnew]
  show (s.order ++ [(name, (s.add name a).1)]).filterMap _ = _
  rw [List.filterMap_append, hlast]
  exact congrArg (· ++ [(name, a)]) (List.filterMap_congr fun e he => by rw [hold e he])

/-- What lies under the key of a name is its definition in the list. -/
theorem Coupled.definition_eq (hs : s.Coupled) (n : String) :
    (s.names n).bind (slots.get? s.definitions) = (⟨s.list⟩ : Table space α).find? n := by
  have hnames : (⟨s.list⟩ : Table space α).names = s.order.map Prod.fst := hs.map_fst_list
  cases hn : s.names n with
  | none =>
      have hnot : n ∉ s.order.map Prod.fst := fun hmem => by
        obtain ⟨key, hkey⟩ := Option.isSome_iff_exists.mp (hs.contains_iff.mpr hmem)
        rw [hn] at hkey
        cases hkey
      rw [← hnames, ← Table.contains_iff, Table.contains, Option.not_isSome_iff_eq_none] at hnot
      exact hnot.symm
  | some key =>
      have hmem := (hs.names_iff n key).mp hn
      obtain ⟨a, ha⟩ := hs.exists_definition hmem
      have hlisted : (n, a) ∈ s.list := List.mem_filterMap.mpr ⟨_, hmem, by rw [ha]; rfl⟩
      have hnodup : (⟨s.list⟩ : Table space α).names.Nodup := hnames ▸ hs.names_nodup
      exact ha.trans (Table.find?_of_mem hnodup hlisted).symm

/-- A store has as many definitions as names. -/
theorem Coupled.size_eq (h : slots.Lawful) (hs : s.Coupled) : s.size = s.list.length := by
  have hcard := h.encard_inUse s.definitions
  simp only [hs.inUse_iff] at hcard
  rw [encard_setOf_mem hs.keys_nodup, List.length_map] at hcard
  rw [← List.length_map Prod.fst, hs.map_fst_list, List.length_map]
  exact (Nat.cast_injective hcard).symm

/-- Whatever a store is asked, it answers as a table; a declaration that the table refuses leaves it
as it is. -/
structure Refines (s : Store space slots) (t : Table space α) : Prop where
  resolve : ∀ n, s.resolve n = t.resolve n
  contains : ∀ n, s.contains n = t.contains n
  size : s.size = t.size
  isEmpty : s.isEmpty = t.isEmpty
  list : s.list = t.entries
  refused : ∀ name a f, t.declare name a = .error f → s.declare name a = (.error f, s)
  accepted : ∀ name a i u, t.declare name a = .ok (i, u) →
    (∃ key, (s.declare name a).1 = .ok key) ∧ (s.declare name a).2.list = u.entries

/-- A store in step is its list of definitions in order. -/
theorem Coupled.refines (h : slots.Lawful) (hs : s.Coupled) : s.Refines ⟨s.list⟩ := by
  have hcontains : ∀ n, s.contains n = (⟨s.list⟩ : Table space α).contains n := fun n => by
    rw [Bool.eq_iff_iff, hs.contains_iff, Table.contains_iff, Table.names, hs.map_fst_list]
  refine ⟨fun n => ?_, hcontains, hs.size_eq h, ?_, rfl, fun name a f hf => ?_,
    fun name a i u hu => ?_⟩
  · rw [Store.resolve, hs.definition_eq]
    rfl
  · rw [Bool.eq_iff_iff, Store.isEmpty, h.isEmpty_iff, Table.isEmpty, List.isEmpty_iff,
      ← List.length_eq_zero_iff, ← hs.size_eq h]
    rfl
  · obtain ⟨hn, rfl⟩ := Table.declare_eq_error_iff.mp hf
    exact declare_of_contains ((hcontains name).trans hn) a
  · obtain ⟨hn, -, hentries⟩ := Table.declare_eq_ok_iff.mp hu
    rw [declare_of_not_contains ((hcontains name).trans hn), hentries]
    exact ⟨⟨_, rfl⟩, hs.list_add h name a⟩

/-! ### Declarations one after the other -/

/-- The store after declarations. -/
def declareAll (s : Store space slots) (calls : List (String × α)) : Store space slots :=
  calls.foldl (fun s c => (s.declare c.1 c.2).2) s

/-- Declarations keep order and slots in step. -/
theorem Coupled.declareAll (h : slots.Lawful) (hs : s.Coupled) (calls : List (String × α)) :
    (s.declareAll calls).Coupled := by
  induction calls generalizing s with
  | nil => exact hs
  | cons c calls ih => exact ih (hs.declare h c.1 c.2)

/-- A store and a table go together through declarations. -/
theorem Coupled.list_declareAll (h : slots.Lawful) (hs : s.Coupled) (calls : List (String × α)) :
    (s.declareAll calls).list = (Table.declareAll (⟨s.list⟩ : Table space α) calls).entries := by
  induction calls generalizing s with
  | nil => rfl
  | cons c calls ih =>
      have hstep : (⟨(s.declare c.1 c.2).2.list⟩ : Table space α) =
          (⟨s.list⟩ : Table space α).after c.1 c.2 := by
        cases hd : (⟨s.list⟩ : Table space α).declare c.1 c.2 with
        | error f =>
            rw [(hs.refines h).refused _ _ _ hd, Table.after, hd]
        | ok r =>
            rw [((hs.refines h).accepted _ _ _ _ hd).2, Table.after, hd]
      rw [Store.declareAll, List.foldl_cons, ← Store.declareAll, ih (hs.declare h c.1 c.2), hstep]
      rfl

/-- What lies under a key stays there. -/
theorem get?_declare (h : slots.Lawful) (hkey : s.get? key = some a) (name : String) (b : α) :
    (s.declare name b).2.get? key = some a := by
  cases hn : s.contains name with
  | true => rw [declare_of_contains hn]; exact hkey
  | false =>
      rw [declare_of_not_contains hn, ← hkey]
      refine h.get?_insert_of_ne _ _ _ fun e => ?_
      rw [Store.get?, e, h.get?_new] at hkey
      cases hkey

/-- A key goes on to lead to its definition. -/
theorem get?_declareAll (h : slots.Lawful) (hkey : s.get? key = some a)
    (calls : List (String × α)) : (s.declareAll calls).get? key = some a := by
  induction calls generalizing s with
  | nil => exact hkey
  | cons c calls ih => exact ih (get?_declare h hkey c.1 c.2)

/-- The key that a declaration gives finds the definition. -/
theorem get?_of_declare (h : slots.Lawful) (hkey : (s.declare name a).1 = .ok key) :
    (s.declare name a).2.get? key = some a := by
  cases hn : s.contains name with
  | true => rw [declare_of_contains hn] at hkey; cases hkey
  | false =>
      rw [declare_of_not_contains hn] at hkey ⊢
      cases hkey
      exact h.get?_insert_self s.definitions a

/-- **A store is an association list that only grows.**  After any declarations, the store answers
as the table after the same declarations; the table holds the names that were declared, each once
and in order, with their first definitions; every key that was given out still finds its definition;
and another declaration fails, changing nothing, exactly when its name was declared before. -/
theorem declareAll_refines (h : slots.Lawful) (calls : List (String × α)) :
    (({} : Store space slots).declareAll calls).Refines (Table.declareAll {} calls) ∧
    (Table.declareAll ({} : Table space α) calls).Holds calls ∧
    (∀ before name a after key, calls = before ++ (name, a) :: after →
      ((({} : Store space slots).declareAll before).declare name a).1 = .ok key →
        (({} : Store space slots).declareAll calls).get? key = some a) ∧
    ∀ name a,
      (name ∈ calls.map (·.1) → (({} : Store space slots).declareAll calls).declare name a =
        (.error (.duplicate space name), ({} : Store space slots).declareAll calls)) ∧
      (name ∉ calls.map (·.1) →
        ∃ key, ((({} : Store space slots).declareAll calls).declare name a).1 = .ok key) := by
  have hempty : ({} : Store space slots).Coupled := .empty h
  have hcoupled := hempty.declareAll h calls
  have hlist : (⟨(({} : Store space slots).declareAll calls).list⟩ : Table space α) =
      Table.declareAll {} calls := by
    rw [hempty.list_declareAll h calls]
    rfl
  -- Every answer of the store is that of the table, so only the table is looked at.
  have hrefines := hcoupled.refines h
  rw [hlist] at hrefines
  have hholds : (Table.declareAll ({} : Table space α) calls).Holds calls :=
    Table.holds_declareAll calls
  have hcontains : ∀ name, (({} : Store space slots).declareAll calls).contains name = true ↔
      name ∈ calls.map (·.1) := fun name => by
    rw [hrefines.contains, Table.contains_iff, hholds.names, List.mem_eraseDups]
  refine ⟨hrefines, hholds, ?_, fun name a => ⟨fun hmem => ?_, fun hmem => ?_⟩⟩
  · rintro before name a after key rfl hkey
    rw [declareAll, List.foldl_append, List.foldl_cons]
    exact get?_declareAll h (get?_of_declare h hkey) after
  · exact declare_of_contains ((hcontains name).mpr hmem) a
  · rw [declare_of_not_contains (Bool.eq_false_iff.mpr (mt (hcontains name).mp hmem))]
    exact ⟨_, rfl⟩

/-- A store in which `p` is declared twice. -/
def sampleStore : Store .formulas (SlotMap.growing Nat) :=
  declareAll {} [("p", 1), ("q", 2), ("p", 3)]

/-- In the sample `p` keeps its first definition, and the key of `q` finds that of `q`. -/
theorem sample_refines :
    (SlotMap.growing Nat).Lawful ∧
      sampleStore.resolve "p" = .ok 1 ∧ sampleStore.list = [("p", 1), ("q", 2)] ∧
      sampleStore.get? ⟨2, 1⟩ = some 2 ∧
      sampleStore.declare "p" 3 = (.error (.duplicate .formulas "p"), sampleStore) := by
  have h := SlotMap.growing_lawful Nat
  obtain ⟨hrefines, hholds, hkeys, hdeclare⟩ :=
    declareAll_refines h [("p", 1), ("q", 2), ("p", 3)]
  refine ⟨h, (hrefines.resolve "p").trans (hholds.resolve "p"), hrefines.list.trans ?_, ?_, ?_⟩
  · decide +kernel
  · exact hkeys [("p", 1)] "q" 2 [("p", 3)] ⟨2, 1⟩ rfl (by decide +kernel)
  · exact (hdeclare "p" 3).1 (by decide)

end Store

end PropBench
