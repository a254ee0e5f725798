import Mathlib
import MonkeyFormat.Proofs.Printing
import MonkeyFormat.Proofs.Shape

set_option autoImplicit false

/-! # Addresses

Every node of a tree stands at an address of its own: the ways down to two children part at their
first or second step, so that no node below the one can be found below the other. -/

namespace MonkeyFormat

theorem Node.places_eq (n : Node) (base : Address) :
    n.places base = (base, n) :: n.slots.flatMap fun s => s.2.places (base ++ s.1) := by
  rw [Node.places]
  congr 1
  conv_rhs => rw [← List.attach_map_subtype_val n.slots, List.flatMap_map]

/-! ## Fields that hold children -/

theorem Value.slots_nodes (name : String) (ns : List Node) :
    (Value.list (ns.map .node)).slots name =
      ns.zipIdx.map fun s => ([.field name, .index s.2], s.1) := by
  rw [slots, List.zipIdx_map, List.filterMap_map]
  exact congrFun (List.filterMap_eq_map' (f := fun s : Node × Nat =>
    (([.field name, .index s.2], s.1) : Address × Node))) ns.zipIdx

theorem Value.slots_words (name : String) (ws : List String) :
    (Value.list (ws.map .str)).slots name = [] := by
  rw [slots, List.filterMap_eq_nil_iff]
  rintro ⟨v, i⟩ hv
  obtain ⟨w, _, rfl⟩ := List.mem_map.1 (List.fst_mem_of_mem_zipIdx hv)
  rfl

theorem Value.Fits.slots {P : Node → Prop} {type : FieldType} {v : Value}
    (h : Value.Fits P type v) (name : String) : ∀ s ∈ v.slots name, s.2.Shaped P := by
  have hnodes {ns : List Node} (hns : ∀ n ∈ ns, n.Shaped P) :
      ∀ s ∈ (Value.list (ns.map .node)).slots name, s.2.Shaped P := by
    intro s hs
    rw [Value.slots_nodes] at hs
    obtain ⟨t, ht, rfl⟩ := List.mem_map.1 hs
    exact hns t.1 (List.fst_mem_of_mem_zipIdx ht)
  cases h with
  | node hn => simpa [Value.slots] using hn
  | some hn => simpa [Value.slots] using hn
  | nodes hns => exact hnodes hns
  | types hns _ => exact hnodes hns
  | words hws =>
    rw [Value.slots_words]
    simp
  | _ => simp [Value.slots]

namespace Node

variable {P : Node → Prop} {n c : Node} {a : Address}

theorem depth_of_mem_slots (h : (a, c) ∈ n.slots) : c.depth < n.depth := by
  rw [slots, List.mem_flatMap] at h
  obtain ⟨key, _, hc⟩ := h
  have hfield := Layout.depth_get n key
  cases hget : n.get key with
  | node m =>
    rw [hget] at hc hfield
    obtain ⟨rfl, rfl⟩ := Prod.mk.inj (List.mem_singleton.1 hc)
    exact hfield
  | list vs =>
    rw [hget] at hc hfield
    rw [Value.slots, List.mem_filterMap] at hc
    obtain ⟨⟨v, i⟩, hv, hnode⟩ := hc
    have hitem := Layout.depth_item (List.fst_mem_of_mem_zipIdx hv)
    change itemsDepth vs < n.depth at hfield
    cases v with
    | node m =>
      cases hnode
      change c.depth ≤ itemsDepth vs at hitem
      omega
    | _ => cases hnode
  | _ =>
    rw [hget] at hc
    cases hc

section Keys

variable {types : List (String × FieldType)} (known : fieldTypes? n.kind = some types)

include known

theorem childKeys_of_fieldTypes :
    n.childKeys = (types.filter fun field => field.2.holdsNodes).map Prod.fst := by
  rw [childKeys, (childFields_of_fieldTypes known).1, Option.getD_some]

theorem mem_childKeys {name : String} {type : FieldType} (h : (name, type) ∈ types)
    (hholds : type.holdsNodes = true) : name ∈ n.childKeys := by
  rw [childKeys_of_fieldTypes known]
  exact List.mem_map.2 ⟨(name, type), List.mem_filter.2 ⟨h, hholds⟩, rfl⟩

theorem nodup_childKeys : n.childKeys.Nodup := by
  rw [childKeys_of_fieldTypes known]
  exact (childFields_of_fieldTypes known).2.sublist (List.filter_sublist.map Prod.fst)

end Keys

theorem mem_slots_of_node {name : String} (hkey : name ∈ n.childKeys)
    (hget : n.get name = .node c) : (([.field name], c) : Address × Node) ∈ n.slots := by
  rw [slots, List.mem_flatMap]
  refine ⟨name, hkey, ?_⟩
  rw [hget]
  exact List.mem_singleton_self _

theorem mem_slots_of_item {name : String} (hkey : name ∈ n.childKeys) {vs : List Value}
    (hget : n.get name = .list vs) {v : Value} {i : Nat} (h : (v, i) ∈ vs.zipIdx)
    (hv : v.node? = some c) : (([.field name, .index i], c) : Address × Node) ∈ n.slots := by
  rw [slots, List.mem_flatMap]
  refine ⟨name, hkey, ?_⟩
  rw [hget, Value.slots, List.mem_filterMap]
  refine ⟨(v, i), h, ?_⟩
  dsimp only
  rw [hv]
  rfl

theorem Shaped.slots (hn : n.Shaped P) : ∀ s ∈ n.slots, s.2.Shaped P := by
  cases hn with
  | intro _ types known here fits number =>
    intro s hs
    rw [Node.slots, childKeys_of_fieldTypes known, List.mem_flatMap] at hs
    obtain ⟨key, hkey, hs⟩ := hs
    obtain ⟨field, hfield, rfl⟩ := List.mem_map.1 hkey
    exact (fits field (List.mem_of_mem_filter hfield)).slots field.1 s hs

/-! ## Places -/

/-- What holds of a node if it holds of its children holds of every node. -/
theorem slots_induction {motive : Node → Prop} (step : ∀ n, (∀ s ∈ n.slots, motive s.2) → motive n)
    (n : Node) : motive n :=
  step n fun s _ => slots_induction step s.2
termination_by sizeOf n
decreasing_by exact sizeOf_lt_of_mem_slots ‹_›

theorem mem_places_self (n : Node) (base : Address) : (base, n) ∈ n.places base := by
  rw [places_eq]
  exact List.mem_cons_self

theorem mem_places_of_slot {base : Address} {p : Address × Node} (hs : (a, c) ∈ n.slots)
    (hp : p ∈ c.places (base ++ a)) : p ∈ n.places base := by
  rw [places_eq]
  exact List.mem_cons_of_mem _ (List.mem_flatMap.2 ⟨(a, c), hs, hp⟩)

/-- What stands below a node of a tree stands in the tree. -/
theorem places_trans {base : Address} {p : Address × Node} (h : (a, c) ∈ n.places base)
    (hp : p ∈ c.places a) : p ∈ n.places base := by
  induction n using slots_induction generalizing base with
  | step n ih =>
    rw [places_eq, List.mem_cons, List.mem_flatMap] at h
    rcases h with h | ⟨s, hs, h⟩
    · obtain ⟨rfl, rfl⟩ := Prod.mk.inj h
      exact hp
    · exact mem_places_of_slot hs (ih s hs h)

theorem prefix_of_mem_places {base : Address} {p : Address × Node} (h : p ∈ n.places base) :
    base <+: p.1 := by
  induction n using slots_induction generalizing base with
  | step n ih =>
    rw [places_eq, List.mem_cons, List.mem_flatMap] at h
    rcases h with rfl | ⟨s, hs, h⟩
    · exact List.prefix_refl base
    · exact (List.prefix_append base s.1).trans (ih s hs h)

theorem Shaped.places (hn : n.Shaped P) {base : Address} {p : Address × Node}
    (hp : p ∈ n.places base) : p.2.Shaped P := by
  induction n using slots_induction generalizing base with
  | step n ih =>
    rw [places_eq, List.mem_cons, List.mem_flatMap] at hp
    rcases hp with rfl | ⟨s, hs, hp⟩
    · exact hn
    · exact ih s hs (hn.slots s hs) hp

/-! ## No two nodes stand at one address -/

/-- Neither way goes on where the other one ends. -/
def Part (a b : Address) : Prop := ¬ a <+: b ∧ ¬ b <+: a

theorem part_of_head {s t : Step} (h : s ≠ t) (a b : Address) : Part (s :: a) (t :: b) := by
  rw [Part, List.cons_prefix_cons, List.cons_prefix_cons]
  exact ⟨fun hp => h hp.1, fun hp => h hp.1.symm⟩

theorem head_of_mem_slots {v : Value} {name : String} {s : Address × Node}
    (h : s ∈ v.slots name) : ∃ a, s.1 = .field name :: a := by
  cases v with
  | node m =>
    rw [List.mem_singleton.1 h]
    exact ⟨[], rfl⟩
  | list vs =>
    rw [Value.slots, List.mem_filterMap] at h
    obtain ⟨⟨v, i⟩, _, hnode⟩ := h
    obtain ⟨m, _, rfl⟩ := Option.map_eq_some_iff.1 hnode
    exact ⟨_, rfl⟩
  | _ => cases h

theorem pairwise_part_slots (v : Value) (name : String) :
    (v.slots name).Pairwise fun s t => Part s.1 t.1 := by
  cases v with
  | node m => exact List.pairwise_singleton _ _
  | list vs =>
    have hplaces : vs.zipIdx.Pairwise fun s t => s.2 ≠ t.2 := by
      have hnodup := List.nodup_range' (s := 0) (n := vs.length)
      rw [← List.zipIdx_map_snd 0 vs] at hnodup
      exact List.pairwise_map.1 hnodup
    rw [Value.slots, List.pairwise_filterMap]
    refine hplaces.imp fun {s t} hne x hx y hy => ?_
    obtain ⟨_, _, rfl⟩ := Option.map_eq_some_iff.1 hx
    obtain ⟨_, _, rfl⟩ := Option.map_eq_some_iff.1 hy
    have hindex : Step.index s.2 ≠ .index t.2 := fun heq => hne (by simpa using heq)
    obtain ⟨hleft, hright⟩ := part_of_head hindex [] []
    exact ⟨fun hp => hleft (List.cons_prefix_cons.1 hp).2,
      fun hp => hright (List.cons_prefix_cons.1 hp).2⟩
  | _ => exact .nil

theorem Shaped.pairwise_slots (hn : n.Shaped P) : n.slots.Pairwise fun s t => Part s.1 t.1 := by
  cases hn with
  | intro _ types known here fits number =>
    rw [Node.slots, List.pairwise_flatMap]
    refine ⟨fun key _ => pairwise_part_slots (n.get key) key,
      (nodup_childKeys known).imp fun {k l} hne s hs t ht => ?_⟩
    obtain ⟨a, ha⟩ := head_of_mem_slots hs
    obtain ⟨b, hb⟩ := head_of_mem_slots ht
    rw [ha, hb]
    exact part_of_head (fun heq => hne (Step.field.inj heq)) a b

theorem Part.append {a b : Address} (h : Part a b) (base : Address) :
    Part (base ++ a) (base ++ b) :=
  ⟨fun hp => h.1 ((List.prefix_append_right_inj base).1 hp),
    fun hp => h.2 ((List.prefix_append_right_inj base).1 hp)⟩

theorem ne_nil_of_mem_slots {s : Address × Node} (h : s ∈ n.slots) : s.1 ≠ [] := by
  rw [Node.slots, List.mem_flatMap] at h
  obtain ⟨key, _, hs⟩ := h
  obtain ⟨a, ha⟩ := head_of_mem_slots hs
  rw [ha]
  exact List.cons_ne_nil _ _

/-- No two nodes of a tree stand at one address. -/
theorem Shaped.nodup_places (hn : n.Shaped P) (base : Address) :
    ((n.places base).map Prod.fst).Nodup := by
  induction n using slots_induction generalizing base with
  | step n ih =>
    rw [places_eq, List.map_cons, List.nodup_cons, List.map_flatMap, List.nodup_flatMap]
    refine ⟨?_, fun s hs => ih s hs (hn.slots s hs) (base ++ s.1), ?_⟩
    · rw [List.mem_flatMap]
      rintro ⟨s, hs, hmem⟩
      obtain ⟨p, hp, hbase⟩ := List.mem_map.1 hmem
      have hprefix := prefix_of_mem_places hp
      rw [hbase] at hprefix
      have hlength := hprefix.length_le
      have hpos := List.length_pos_iff.2 (ne_nil_of_mem_slots hs)
      rw [List.length_append] at hlength
      dsimp only at hlength
      omega
    · refine hn.pairwise_slots.imp fun {s t} hpart => ?_
      rw [Function.onFun, List.disjoint_left]
      intro a ha hb
      obtain ⟨p, hp, rfl⟩ := List.mem_map.1 ha
      obtain ⟨q, hq, hsame⟩ := List.mem_map.1 hb
      have hleft := prefix_of_mem_places hp
      have hright := prefix_of_mem_places hq
      rw [hsame] at hright
      -- two ways to one address go on in one another
      rcases List.prefix_or_prefix_of_prefix hleft hright with h | h
      · exact (hpart.append base).1 h
      · exact (hpart.append base).2 h

/-- The way to a place that goes through a child stays below it. -/
theorem Shaped.mem_places_below (hn : n.Shaped P) {base place : Address}
    (hplace : place ∈ (n.places base).map Prod.fst) {s : Address × Node} (hs : s ∈ n.slots)
    (hthrough : base ++ s.1 <+: place) : place ∈ (s.2.places (base ++ s.1)).map Prod.fst := by
  rw [places_eq, List.map_cons, List.mem_cons, List.map_flatMap, List.mem_flatMap] at hplace
  rcases hplace with rfl | ⟨t, ht, hmem⟩
  · have hlength := hthrough.length_le
    have hpos := List.length_pos_iff.2 (ne_nil_of_mem_slots hs)
    rw [List.length_append] at hlength
    omega
  · obtain ⟨p, hp, rfl⟩ := List.mem_map.1 hmem
    by_cases hsame : s = t
    · rw [hsame]
      exact hmem
    · -- the way cannot go through two children
      have hsymm : Std.Symm fun s t : Address × Node => Part s.1 t.1 := ⟨fun _ _ h => h.symm⟩
      have hpart : Part (base ++ s.1) (base ++ t.1) :=
        (hn.pairwise_slots.forall hs ht hsame).append base
      rcases List.prefix_or_prefix_of_prefix hthrough (prefix_of_mem_places hp) with h | h
      · exact absurd h hpart.1
      · exact absurd h hpart.2

end Node

end MonkeyFormat
