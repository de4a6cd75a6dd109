/- Changing the values at several places of a document, none of which leads through another. -/
import Tabular.Document.Collapse
import Tabular.Proofs.Json.Nesting

namespace Tabular.Document
open Tabular.Json
variable {f g : Value → Value} {P Q : Value → Prop} {place : Place} {ps : List Place} {hop : Hop}
  {v w : Value} {items : List Value} {ms : Members}

/-- Changes the values at a place; the rest of the document stays. -/
def alter (f : Value → Value) : Place → Value → Value
  | [], v => f v
  | .key name :: rest, .obj ms => .obj (Members.update ms name (alter f rest))
  | .each :: rest, .arr items => .arr (items.map (alter f rest))
  | _, v => v

/-- Changes the values at one place after the other. -/
def alterAll (f : Value → Value) (ps : List Place) (v : Value) : Value :=
  ps.foldl (fun v place => alter f place v) v

/-- The values at a place. -/
def valuesAt : Place → Value → List Value
  | [], v => [v]
  | .key name :: rest, .obj ms => ((Members.get? ms name).map (valuesAt rest)).getD []
  | .each :: rest, .arr items => items.flatMap (valuesAt rest)
  | _, _ => []

/-- The places behind a hop. -/
def under (hop : Hop) (ps : List Place) : List Place :=
  ps.filterMap fun
    | [] => none
    | first :: rest => if first = hop then some rest else none

/-- No place leads through another one. -/
def Independent (ps : List Place) : Prop := ps.Pairwise fun p q => ¬ p <+: q ∧ ¬ q <+: p

theorem collapse_eq_alter (prune : Bool) (place : Place) (v : Value) :
    collapse prune place v = alter (encodeValue prune) place v := by
  induction place generalizing v with
  | nil => rfl
  | cons hop rest ih =>
      have ih : collapse prune rest = alter (encodeValue prune) rest := funext ih
      cases hop <;> cases v <;> first | rfl | rw [collapse, alter, ih]

theorem alterAll_cons (f : Value → Value) (place : Place) (ps : List Place) (v : Value) :
    alterAll f (place :: ps) v = alterAll f ps (alter f place v) := rfl

theorem under_cons (hop first : Hop) (rest : Place) (ps : List Place) :
    under hop ((first :: rest) :: ps) =
      if first = hop then rest :: under hop ps else under hop ps := by
  rw [under, List.filterMap_cons]
  split <;> simp_all [under]

theorem mem_under : place ∈ under hop ps ↔ hop :: place ∈ ps := by
  rw [under, List.mem_filterMap]
  constructor
  · rintro ⟨p, hp, heq⟩
    cases p with
    | nil => cases heq
    | cons first rest =>
        simp only [Option.ite_none_right_eq_some, Option.some.injEq] at heq
        obtain ⟨rfl, rfl⟩ := heq
        exact hp
  · intro hmem
    exact ⟨_, hmem, if_pos rfl⟩

theorem Independent.under (h : Independent ps) (hop : Hop) : Independent (under hop ps) := by
  refine List.Pairwise.filterMap _ ?_ h
  intro p q hpq p' hp q' hq
  cases p with
  | nil => cases hp
  | cons first rest => cases q with
    | nil => cases hq
    | cons first' rest' =>
        simp only [Option.ite_none_right_eq_some, Option.some.injEq] at hp hq
        obtain ⟨rfl, rfl⟩ := hp
        obtain ⟨rfl, rfl⟩ := hq
        simpa only [List.cons_prefix_cons, true_and] using hpq

theorem Independent.eq_of_nil_mem (h : Independent ps) (hmem : [] ∈ ps) : ps = [[]] := by
  match ps, h, hmem with
  | [p], _, hmem => rw [List.mem_singleton.mp hmem]
  | p :: q :: rest, h, hmem =>
      obtain ⟨hp, _⟩ := List.pairwise_cons.mp h
      rcases List.mem_cons.mp hmem with rfl | hmem
      · exact absurd List.nil_prefix (hp q List.mem_cons_self).1
      · exact absurd List.nil_prefix (hp [] hmem).2

theorem alterAll_arr (h : [] ∉ ps) (f : Value → Value) (items : List Value) :
    alterAll f ps (.arr items) = .arr (items.map (alterAll f (under .each ps))) := by
  induction ps generalizing items with
  | nil => exact congrArg Value.arr (List.map_id items).symm
  | cons p ps ih =>
      obtain ⟨hp, hps⟩ := not_or.mp (mt List.mem_cons.mpr h)
      cases p with
      | nil => exact absurd rfl hp
      | cons hop rest =>
          rw [alterAll_cons, under_cons]
          cases hop with
          | key name => exact ih hps items
          | each =>
              rw [if_pos rfl, alter, ih hps, List.map_map]
              rfl

theorem alterAll_obj (h : [] ∉ ps) (f : Value → Value) (hkeys : ms.keys.Nodup) :
    alterAll f ps (.obj ms) = .obj (ms.mapValues fun key => alterAll f (under (.key key) ps)) := by
  induction ps generalizing ms with
  | nil => exact congrArg Value.obj (List.map_id ms).symm
  | cons p ps ih =>
      obtain ⟨hp, hps⟩ := not_or.mp (mt List.mem_cons.mpr h)
      cases p with
      | nil => exact absurd rfl hp
      | cons hop rest =>
          rw [alterAll_cons]
          cases hop with
          | each =>
              simp only [under_cons, reduceCtorEq, if_false]
              exact ih hps hkeys
          | key name =>
              rw [alter, Members.update_eq_mapValues hkeys,
                ih hps (by rwa [Members.keys_mapValues]), Members.mapValues_mapValues]
              congr 2
              funext key v
              rw [under_cons]
              by_cases hkey : key = name
              · rw [if_pos hkey, if_pos (congrArg Hop.key hkey.symm), alterAll_cons]
              · rw [if_neg hkey, if_neg (fun heq => hkey (Hop.key.inj heq).symm)]

/-- A value that is neither a list nor an object. -/
def IsLeaf : Value → Prop
  | .arr _ => False
  | .obj _ => False
  | _ => True

theorem alterAll_leaf (h : [] ∉ ps) (hv : IsLeaf v) (f : Value → Value) : alterAll f ps v = v := by
  induction ps with
  | nil => rfl
  | cons p ps ih =>
      obtain ⟨hp, hps⟩ := not_or.mp (mt List.mem_cons.mpr h)
      have hstay : alter f p v = v := by
        cases p with
        | nil => exact absurd rfl hp
        | cons hop rest => cases v with
          | arr items => exact hv.elim
          | obj ms => exact hv.elim
          | _ => cases hop <;> rfl
      rw [alterAll_cons, hstay]
      exact ih hps

/-- The places in a value: it is at one of them, or they all lead further down. -/
inductive Apart : List Place → Value → Prop where
  | here (v : Value) : Apart [[]] v
  | leaf (ps : List Place) (v : Value) (hps : [] ∉ ps) (hv : IsLeaf v) : Apart ps v
  | arr (ps : List Place) (items : List Value) (hps : [] ∉ ps)
      (hitems : ∀ v ∈ items, Apart (under .each ps) v) : Apart ps (.arr items)
  | obj (ps : List Place) (ms : Members) (hps : [] ∉ ps) (hkeys : ms.keys.Nodup)
      (hms : ∀ m ∈ ms, Apart (under (.key m.1) ps) m.2) : Apart ps (.obj ms)

theorem Independent.apart (hps : Independent ps) (hv : v.Keyed) : Apart ps v := by
  induction v generalizing ps with
  | arr items ih =>
      by_cases hmem : [] ∈ ps
      · rw [hps.eq_of_nil_mem hmem]
        exact .here _
      · exact .arr ps items hmem fun v hv' => ih v hv' (hps.under _) (Value.keyed_arr.mp hv v hv')
  | obj ms ih =>
      obtain ⟨hkeys, hms⟩ := Value.keyed_obj.mp hv
      by_cases hmem : [] ∈ ps
      · rw [hps.eq_of_nil_mem hmem]
        exact .here _
      · exact .obj ps ms hmem hkeys fun m hm => ih m hm (hps.under _) (hms m hm)
  | _ =>
      by_cases hmem : [] ∈ ps
      · rw [hps.eq_of_nil_mem hmem]
        exact .here _
      · exact .leaf ps _ hmem trivial

/-- Changes at the same places, one after the other, are one change. -/
theorem Apart.alterAll_alterAll (h : Apart ps v) (f g : Value → Value) :
    alterAll f ps (alterAll g ps v) = alterAll (f ∘ g) ps v := by
  induction h with
  | here v => rfl
  | leaf ps v hps hv => rw [alterAll_leaf hps hv, alterAll_leaf hps hv, alterAll_leaf hps hv]
  | arr ps items hps _ ih =>
      rw [alterAll_arr hps, alterAll_arr hps, alterAll_arr hps, List.map_map]
      congr 1
      exact List.map_congr_left ih
  | obj ps ms hps hkeys _ ih =>
      rw [alterAll_obj hps _ hkeys, alterAll_obj hps _ (by rwa [Members.keys_mapValues]),
        alterAll_obj hps _ hkeys, Members.mapValues_mapValues]
      congr 1
      exact Members.mapValues_inj_left.mpr ih

/-- Every value at the places has a property. -/
def HoldsAt (Q : Value → Prop) (ps : List Place) (v : Value) : Prop :=
  ∀ p ∈ ps, ∀ w ∈ valuesAt p v, Q w

theorem holdsAt_here : HoldsAt Q [[]] v ↔ Q v := by
  rw [HoldsAt, List.forall_mem_singleton, valuesAt, List.forall_mem_singleton]

theorem holdsAt_leaf (h : [] ∉ ps) (hv : IsLeaf v) : HoldsAt Q ps v := by
  intro p hp w hw
  cases p with
  | nil => exact absurd hp h
  | cons hop rest => cases v with
    | arr items => exact hv.elim
    | obj ms => exact hv.elim
    | _ => cases hop <;> exact absurd hw List.not_mem_nil

theorem holdsAt_arr (h : [] ∉ ps) :
    HoldsAt Q ps (.arr items) ↔ ∀ v ∈ items, HoldsAt Q (under .each ps) v := by
  constructor
  · intro hall v hv p hp w hw
    exact hall (.each :: p) (mem_under.mp hp) w (List.mem_flatMap.mpr ⟨v, hv, hw⟩)
  · intro hall p hp w hw
    cases p with
    | nil => exact absurd hp h
    | cons hop rest => cases hop with
      | key name => exact absurd hw List.not_mem_nil
      | each =>
          obtain ⟨v, hv, hw⟩ := List.mem_flatMap.mp hw
          exact hall v hv rest (mem_under.mpr hp) w hw

theorem holdsAt_obj (h : [] ∉ ps) (hkeys : ms.keys.Nodup) :
    HoldsAt Q ps (.obj ms) ↔ ∀ m ∈ ms, HoldsAt Q (under (.key m.1) ps) m.2 := by
  constructor
  · intro hall m hm p hp w hw
    refine hall (.key m.1 :: p) (mem_under.mp hp) w ?_
    rw [valuesAt, Members.get?_of_mem hkeys hm]
    exact hw
  · intro hall p hp w hw
    cases p with
    | nil => exact absurd hp h
    | cons hop rest => cases hop with
      | each => exact absurd hw List.not_mem_nil
      | key name =>
          rw [valuesAt] at hw
          cases hget : Members.get? ms name with
          | none =>
              rw [hget] at hw
              exact absurd hw List.not_mem_nil
          | some v =>
              rw [hget] at hw
              exact hall (name, v) (Members.mem_of_get? hget) rest (mem_under.mpr hp) w hw

theorem Apart.alterAll_congr (h : Apart ps v) (hfg : HoldsAt (fun w => f w = g w) ps v) :
    alterAll f ps v = alterAll g ps v := by
  induction h with
  | here v =>
      have hhere := holdsAt_here.mp hfg
      exact hhere
  | leaf ps v hps hv => rw [alterAll_leaf hps hv, alterAll_leaf hps hv]
  | arr ps items hps _ ih =>
      rw [alterAll_arr hps, alterAll_arr hps]
      congr 1
      exact List.map_congr_left fun v hv => ih v hv ((holdsAt_arr hps).mp hfg v hv)
  | obj ps ms hps hkeys _ ih =>
      rw [alterAll_obj hps _ hkeys, alterAll_obj hps _ hkeys]
      congr 1
      rw [Members.mapValues_inj_left]
      exact fun m hm => ih m hm ((holdsAt_obj hps hkeys).mp hfg m hm)

theorem Apart.alterAll_eq_self (h : Apart ps v) (hf : HoldsAt (fun w => f w = w) ps v) :
    alterAll f ps v = v := by
  induction h with
  | here v =>
      have hhere := holdsAt_here.mp hf
      exact hhere
  | leaf ps v hps hv => exact alterAll_leaf hps hv f
  | arr ps items hps _ ih =>
      rw [alterAll_arr hps, map_eq_self_iff.mpr]
      exact fun v hv => ih v hv ((holdsAt_arr hps).mp hf v hv)
  | obj ps ms hps hkeys _ ih =>
      rw [alterAll_obj hps _ hkeys, Members.mapValues_eq_self_iff.mpr]
      exact fun m hm => ih m hm ((holdsAt_obj hps hkeys).mp hf m hm)

/-- What holds of a list and an object whose parts it holds of, the keys of the object allowing. -/
structure Hereditary (S : Value → Prop) (K : List String → Prop) : Prop where
  arr : ∀ items, S (.arr items) ↔ ∀ v ∈ items, S v
  obj : ∀ ms : Members, S (.obj ms) ↔ K ms.keys ∧ ∀ m ∈ ms, S m.2

variable {S : Value → Prop} {K : List String → Prop}

theorem hereditary_keyed : Hereditary Value.Keyed List.Nodup :=
  ⟨fun _ => Value.keyed_arr, fun _ => Value.keyed_obj⟩

theorem hereditary_leaves (P : Value → Prop) : Hereditary (Value.Leaves P) fun _ => True :=
  ⟨fun _ => Value.leaves_arr, fun _ => Value.leaves_obj.trans (true_and _).symm.to_iff⟩

theorem Hereditary.alter (h : Hereditary S K) (hf : ∀ w, S w → S (f w)) (hv : S v) :
    S (alter f place v) := by
  induction place generalizing v with
  | nil => exact hf v hv
  | cons hop rest ih =>
      cases hop with
      | key name => cases v with
        | obj ms =>
            obtain ⟨hkeys, hms⟩ := (h.obj ms).mp hv
            rw [Document.alter, h.obj, Members.keys_update]
            exact ⟨hkeys, Members.forall_mem_update (fun w hw => ih hw) hms name⟩
        | _ => exact hv
      | each => cases v with
        | arr items =>
            rw [Document.alter, h.arr, List.forall_mem_map]
            exact fun w hw => ih ((h.arr items).mp hv w hw)
        | _ => exact hv

theorem Hereditary.alterAll (h : Hereditary S K) (hf : ∀ w, S w → S (f w)) (hv : S v) :
    S (alterAll f ps v) := by
  induction ps generalizing v with
  | nil => exact hv
  | cons p ps ih => exact ih (h.alter hf hv)

theorem Hereditary.holdsAt (h : Hereditary S K) (hv : S v) (ps : List Place) : HoldsAt S ps v := by
  intro p hp
  clear hp
  induction p generalizing v with
  | nil => exact List.forall_mem_singleton.mpr hv
  | cons hop rest ih =>
      cases hop with
      | key name => cases v with
        | obj ms =>
            rw [valuesAt]
            cases hget : Members.get? ms name with
            | none => exact fun w hw => absurd hw List.not_mem_nil
            | some w => exact ih (((h.obj ms).mp hv).2 _ (Members.mem_of_get? hget))
        | _ => exact fun w hw => absurd hw List.not_mem_nil
      | each => cases v with
        | arr items =>
            intro w hw
            obtain ⟨u, hu, hw⟩ := List.mem_flatMap.mp hw
            exact ih ((h.arr items).mp hv u hu) w hw
        | _ => exact fun w hw => absurd hw List.not_mem_nil

end Tabular.Document
