/- Storing at places, none of which leads through another, comes to the same in every order. -/
import Tabular.Proofs.Document.Collapse
import Tabular.Proofs.Report.Layout

namespace Tabular.Document
open Tabular.Json
variable {p q : Place}

/-- Two places part: after some hops that they share, they take different ones. -/
inductive Parts : Place → Place → Prop where
  | here {hop hop' : Hop} (h : hop ≠ hop') (p q : Place) : Parts (hop :: p) (hop' :: q)
  | under (hop : Hop) {p q : Place} : Parts p q → Parts (hop :: p) (hop :: q)

theorem Parts.of_incomparable (hp : ¬ p <+: q) (hq : ¬ q <+: p) : Parts p q := by
  induction p generalizing q with
  | nil => exact absurd List.nil_prefix hp
  | cons hop p ih => cases q with
    | nil => exact absurd List.nil_prefix hq
    | cons hop' q =>
        by_cases h : hop = hop'
        · subst h
          rw [List.cons_prefix_cons] at hp hq
          exact .under hop (ih (fun h => hp ⟨rfl, h⟩) (fun h => hq ⟨rfl, h⟩))
        · exact .here h p q

/-- Changes at places that part do not touch each other. -/
theorem Parts.alter_comm (h : Parts p q) (f g : Value → Value) (v : Value) :
    alter f p (alter g q v) = alter g q (alter f p v) := by
  induction h generalizing v with
  | @here hop hop' hne p q => cases hop with
    | key name => cases hop' with
      | key name' =>
          have hname : name' ≠ name := fun heq => hne (congrArg Hop.key heq.symm)
          cases v with
          | obj ms => simp only [alter, Members.update_comm hname]
          | _ => rfl
      | each => cases v <;> rfl
    | each => cases hop' with
      | key name => cases v <;> rfl
      | each => exact absurd rfl hne
  | @under hop p q _ ih =>
      have hcomp : alter f p ∘ alter g q = alter g q ∘ alter f p := funext ih
      cases hop with
      | key name => cases v with
        | obj ms => simp only [alter, Members.update_update, hcomp]
        | _ => rfl
      | each => cases v with
        | arr items => simp only [alter, List.map_map, hcomp]
        | _ => rfl

/-- A change at a place leaves what is counted at one that parts from it. -/
theorem Parts.encodable_alter (h : Parts p q) (f : Value → Value) (v : Value) :
    encodable q (alter f p v) = encodable q v := by
  induction h generalizing v with
  | @here hop hop' hne p q => cases hop with
    | key name => cases hop' with
      | key name' =>
          have hname : name ≠ name' := fun heq => hne (congrArg Hop.key heq)
          cases v with
          | obj ms => rw [alter, encodable_key, Members.get?_update, if_neg hname, encodable_key]
          | _ => rfl
      | each => cases v <;> rfl
    | each => cases hop' with
      | key name => cases v <;> rfl
      | each => exact absurd rfl hne
  | @under hop p q _ ih =>
      have hcomp : encodable q ∘ alter f p = encodable q := funext ih
      cases hop with
      | key name => cases v with
        | obj ms =>
            rw [alter, encodable_key, Members.get?_update, if_pos rfl, Option.map_map, hcomp,
              encodable_key]
        | _ => rfl
      | each => cases v with
        | arr items => rw [alter, encodable_each, List.map_map, hcomp, encodable_each]
        | _ => rfl

theorem Parts.symm (h : Parts p q) : Parts q p := by
  induction h with
  | here h p q => exact .here h.symm q p
  | under hop _ ih => exact .under hop ih

/-- Stores a document at a place, and adds what turns into text there to a count. -/
def storeAt (run : Value × Nat) (place : Place) : Value × Nat :=
  (collapse true place run.1, run.2 + encodable place run.1)

theorem Parts.storeAt_comm (h : Parts p q) (run : Value × Nat) :
    storeAt (storeAt run p) q = storeAt (storeAt run q) p := by
  simp only [storeAt, collapse_eq_alter, h.encodable_alter, h.symm.encodable_alter,
    h.alter_comm, Nat.add_right_comm]

/-- Storing at independent places, one after the other, counts what storing at each alone does. -/
theorem Independent.foldl_storeAt {ps : List Place} (hps : Independent ps) (v : Value) (n : Nat) :
    ps.foldl storeAt (v, n) = (ps.foldl (fun v place => collapse true place v) v,
      ps.foldl (fun n place => n + encodable place v) n) := by
  induction ps generalizing v n with
  | nil => rfl
  | cons p ps ih =>
      obtain ⟨hp, hps⟩ := List.pairwise_cons.mp hps
      have hcount : ∀ m, ∀ place ∈ ps,
          m + encodable place (collapse true p v) = m + encodable place v := by
        intro m place hplace
        have hparts := Parts.of_incomparable (hp place hplace).1 (hp place hplace).2
        rw [collapse_eq_alter, hparts.encodable_alter]
      simp only [List.foldl_cons, storeAt, ih hps]
      rw [List.foldl_ext _ _ _ hcount]

theorem Independent.foldl_storeAt_perm {ps qs : List Place} (hps : Independent ps)
    (h : qs.Perm ps) (run : Value × Nat) : qs.foldl storeAt run = ps.foldl storeAt run := by
  have hsymm : Std.Symm fun p q : Place => ¬ p <+: q ∧ ¬ q <+: p := ⟨fun _ _ h => h.symm⟩
  refine (h.symm.foldl_eq' ?_ run).symm
  intro p hp q hq run
  by_cases heq : p = q
  · rw [heq]
  · have hparts := hps.forall hp hq heq
    exact (Parts.of_incomparable hparts.1 hparts.2).storeAt_comm run

end Tabular.Document

namespace Tabular.Report
open Tabular.Json Tabular.Document

/-- Storing at two places, neither of which leads through the other, gives the same document and
    counts in either order. None of the encoded places leads through another; so a layout is stored
    as the same document, and as many values are counted, whatever their order. -/
theorem Layout.stored_in_any_order :
    (∀ (v : Value) (p q : Place) (first second : Bool), ¬ p <+: q → ¬ q <+: p →
      collapse second q (collapse first p v) = collapse first p (collapse second q v) ∧
        encodable p (collapse second q v) = encodable p v ∧
        encodable q (collapse first p v) = encodable q v) ∧
      encodedPlaces.Pairwise (fun p q => ¬ p <+: q ∧ ¬ q <+: p) ∧
      ∀ (l : Layout) (places : List Place), places.Perm encodedPlaces →
        places.foldl storeAt (l.document, 0) = (l.stored, l.encodedCount) := by
  refine ⟨?_, independent_encodedPlaces, ?_⟩
  · intro v p q first second hp hq
    have hparts := Parts.of_incomparable hp hq
    simp only [collapse_eq_alter]
    exact ⟨(hparts.alter_comm _ _ v).symm, hparts.symm.encodable_alter _ v,
      hparts.encodable_alter _ v⟩
  · intro l places hperm
    rw [independent_encodedPlaces.foldl_storeAt_perm hperm,
      independent_encodedPlaces.foldl_storeAt]
    rfl

/-- An open layout with values to store on three levels. -/
def openLayout : Layout where
  document := .obj
    [("sections", .arr
      [.obj [("config", .obj [("zoom", .null)]), ("filters", .arr [.null])],
        .obj [("visualContainers", .arr [.obj [("query", .bool true)], .str "none"])]]),
      ("config", .obj [])]

theorem Layout.stored_in_any_order_openLayout :
    collapse false [.key "sections", .each, .key "filters"]
        (collapse true [.key "sections", .each, .key "config"] openLayout.document) =
      collapse true [.key "sections", .each, .key "config"]
        (collapse false [.key "sections", .each, .key "filters"] openLayout.document) ∧
      encodedPlaces.reverse.foldl storeAt (openLayout.document, 0) = (.obj
        [("sections", .arr
          [.obj [("config", .str "\x7b\x7d"), ("filters", .str "[null]")],
            .obj [("visualContainers", .arr [.obj [("query", .str "true")], .str "none"])]]),
          ("config", .str "\x7b\x7d")], 4) := by
  obtain ⟨hcomm, _, horder⟩ := Layout.stored_in_any_order
  have hstored : openLayout.stored = .obj
      [("sections", .arr
        [.obj [("config", .str "\x7b\x7d"), ("filters", .str "[null]")],
          .obj [("visualContainers", .arr [.obj [("query", .str "true")], .str "none"])]]),
        ("config", .str "\x7b\x7d")] := by cbv
  refine ⟨(hcomm _ _ _ _ _ (by decide) (by decide)).1, ?_⟩
  rw [horder openLayout _ (List.reverse_perm encodedPlaces), hstored]
  rfl

end Tabular.Report
