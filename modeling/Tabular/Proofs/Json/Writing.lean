/- Writing a value under a path of keys: what is read afterwards, and where new keys stand. -/
import Tabular.Proofs.Json.Agree
import Tabular.Proofs.Json.Path

namespace Tabular.Json
variable {ms ns : Members} {key k : String} {p q path : List String} {u v w : Value}

/-- The value under a path of keys, if there is one. -/
def Value.under? (u : Value) (path : List String) : Option Value := u.at? (path.map .key)

/-- The keys of the object under a path, in their order; there are none if there is no object. -/
def Value.keysUnder (u : Value) (path : List String) : List String :=
  ((u.under? path).getD .null).members.keys

/-- What becomes of a value when another one is written under a path of keys in it. -/
def Value.write : Value → List String → Value → Value
  | _, [], v => v
  | u, key :: path, v => .obj (u.members.putPath (key :: path) v)

/-- Values that differ by no more than the order of the keys in one object. -/
inductive Value.Reordered : Value → Value → Prop
  | here {ms ns : Members} : ms.Perm ns → Reordered (.obj ms) (.obj ns)
  | inside {ms : Members} {key : String} {v w : Value} : Reordered v w →
      Reordered (.obj (ms.put key v)) (.obj (ms.put key w))

namespace Members

/-- Each key of a path is written in the value that the one before it has. -/
theorem putPath_cons (ms : Members) (key : String) (path : List String) (v : Value) :
    ms.putPath (key :: path) v = ms.put key ((ms.read key).write path v) := by
  cases path with
  | nil => rfl
  | cons k path =>
      simp only [Members.putPath, Members.read, Value.write]
      cases ms.get? key with
      | none => rfl
      | some u => cases u <;> rfl

theorem obj_putPath (ms : Members) (h : path ≠ []) (v : Value) :
    Value.obj (ms.putPath path v) = (Value.obj ms).write path v := by
  cases path with
  | nil => exact absurd rfl h
  | cons key path => rfl

end Members

theorem Value.write_cons (u : Value) (key : String) (path : List String) (v : Value) :
    u.write (key :: path) v =
      .obj (u.members.put key ((u.members.read key).write path v)) := by
  rw [Value.write, Members.putPath_cons]

theorem Value.under?_nil (u : Value) : u.under? [] = some u := u.at?_nil

/-- A value that is no object has nothing under a key. -/
theorem Value.under?_cons (u : Value) (key : String) (path : List String) :
    u.under? (key :: path) = (u.members.get? key).bind fun w => w.under? path := by
  cases u <;> rfl

theorem Members.under?_read (ms : Members) (key : String) (h : path ≠ []) :
    (ms.read key).under? path = (ms.get? key).bind fun w => w.under? path := by
  cases hget : ms.get? key with
  | some w => rw [Members.read_of_get? hget, Option.bind_some]
  | none => cases path with
    | nil => exact absurd rfl h
    | cons k path =>
        rw [Members.read, hget]
        exact Value.at?_null_cons (.key k) (path.map .key)

theorem Value.keysUnder_cons (u : Value) (key : String) (path : List String) :
    u.keysUnder (key :: path) = (u.members.read key).keysUnder path := by
  rw [Value.keysUnder, Value.under?_cons, Value.keysUnder]
  cases path with
  | nil =>
      rw [Value.under?_nil, Members.read]
      cases u.members.get? key <;> rfl
  | cons k path => rw [Members.under?_read _ _ (List.cons_ne_nil k path)]

theorem Value.under?_write (u : Value) (path : List String) (v : Value) :
    (u.write path v).under? path = some v := by
  induction path generalizing u with
  | nil => exact v.under?_nil
  | cons key path ih =>
      rw [Value.write_cons, Value.under?_cons, Value.members_obj, Members.get?_put, if_pos rfl,
        Option.bind_some, ih]

/-- What is read under another path is as it was, be it there or not. -/
theorem Value.under?_write_of_apart (hp : ¬ p <+: q) (hq : ¬ q <+: p) (u v : Value) :
    (u.write p v).under? q = u.under? q := by
  induction p generalizing q u with
  | nil => exact absurd List.nil_prefix hp
  | cons key p ih => cases q with
    | nil => exact absurd List.nil_prefix hq
    | cons k q =>
        rw [Value.write_cons, Value.under?_cons, Value.under?_cons, Value.members_obj,
          Members.get?_put]
        rw [List.cons_prefix_cons] at hp hq
        by_cases hk : key = k
        · have hpath : ¬ p <+: q := fun h => hp ⟨hk, h⟩
          have hpath' : ¬ q <+: p := fun h => hq ⟨hk.symm, h⟩
          -- The path goes on, and below it a missing key reads like null.
          have hne : q ≠ [] := fun h => hpath' (h ▸ List.nil_prefix)
          rw [if_pos hk, Option.bind_some, ih hpath hpath', hk, Members.under?_read _ _ hne]
        · rw [if_neg hk]

/-- Along the path an object keeps its keys in their order, and gets the next key of the path
    behind them if it has not got it. -/
theorem Value.keysUnder_write (front : List String) (key : String) (path : List String)
    (u v : Value) : (u.write (front ++ key :: path) v).keysUnder front =
      u.keysUnder front ++ if key ∈ u.keysUnder front then [] else [key] := by
  induction front generalizing u with
  | nil =>
      rw [List.nil_append, Value.write_cons]
      exact Members.keys_put _ _ _
  | cons k front ih =>
      rw [List.cons_append, Value.write_cons, Value.keysUnder_cons, Value.keysUnder_cons u,
        Value.members_obj, Members.read_put_self, ih]

theorem Value.write_write (u : Value) (path : List String) (v w : Value) :
    (u.write path v).write path w = u.write path w := by
  induction path generalizing u with
  | nil => rfl
  | cons key path ih =>
      rw [Value.write_cons, Value.write_cons, Value.members_obj, Members.read_put_self,
        Members.put_put, ih, Value.write_cons]

/-- Paths that part at a key are written in the same object there, and each adds one key to it. -/
theorem Value.write_comm (hp : ¬ p <+: q) (hq : ¬ q <+: p) (u v w : Value) :
    ((u.write p v).write q w).Reordered ((u.write q w).write p v) := by
  induction p generalizing q u with
  | nil => exact absurd List.nil_prefix hp
  | cons key p ih => cases q with
    | nil => exact absurd List.nil_prefix hq
    | cons k q =>
        rw [List.cons_prefix_cons] at hp hq
        simp only [Value.write_cons, Value.members_obj]
        by_cases hk : key = k
        · subst hk
          rw [Members.read_put_self, Members.read_put_self, Members.put_put, Members.put_put]
          exact .inside (ih (fun h => hp ⟨rfl, h⟩) (fun h => hq ⟨rfl, h⟩) _)
        · rw [Members.read_put, Members.read_put, if_neg hk, if_neg (Ne.symm hk)]
          exact .here (Members.put_put_perm hk _ _ _)

theorem Value.Keyed.write (hu : u.Keyed) (hv : v.Keyed) (path : List String) :
    (u.write path v).Keyed := by
  induction path generalizing u with
  | nil => exact hv
  | cons key path ih =>
      rw [Value.write_cons]
      exact Members.keyed_put hu.members key (ih (Members.keyed_read hu.members key))

/-- The order of keys does not count when documents are compared. -/
theorem Value.Reordered.agrees (h : v.Reordered w) (hv : v.Keyed) : v.agrees w = true := by
  induction h with
  | @here ms ns hperm =>
      obtain ⟨hkeys, hmembers⟩ := Value.keyed_obj.mp hv
      have hkeys' : ns.keys.Nodup := (hperm.map Prod.fst).nodup_iff.mp hkeys
      refine Value.agrees_obj hperm.length_eq fun m hm => ⟨m.2, ?_, ?_⟩
      · exact Members.get?_of_mem hkeys' (hperm.mem_iff.mp hm)
      · exact Value.agrees_self (hmembers m hm)
  | @inside ms key v w _ ih =>
      -- Both objects have the same keys, and but for one of them the same values.
      obtain ⟨hkeys, hmembers⟩ := Value.keyed_obj.mp hv
      have hlength : (ms.put key v).length = (ms.put key w).length := by
        have hsame := (Members.keys_put ms key v).trans (Members.keys_put ms key w).symm
        simpa only [Members.keys, List.length_map] using congrArg List.length hsame
      refine Value.agrees_obj hlength fun m hm => ?_
      have hget := Members.get?_of_mem hkeys hm
      rw [Members.get?_put] at hget ⊢
      by_cases hk : key = m.1
      · rw [if_pos hk, Option.some.injEq] at hget
        rw [if_pos hk, ← hget]
        exact ⟨w, rfl, ih (hget ▸ hmembers m hm)⟩
      · rw [if_neg hk] at hget ⊢
        exact ⟨m.2, hget, Value.agrees_self (hmembers m hm)⟩

/-- What is written under a path of keys is read there. Under a path that parts from it everything
    is as it was, whatever stood on the way; along the path an object keeps its keys in their order
    and gets no other key than the next one of the path, at its end. A second value takes the place
    of the first. Where two paths part it only tells on the order of keys which one is written
    first: the documents are equal. -/
theorem Members.putPath_writes :
    (∀ (ms : Members) (path : List String) (v : Value), path ≠ [] →
      (Value.obj (ms.putPath path v)).under? path = some v) ∧
    (∀ (ms : Members) (p q : List String) (v : Value), ¬ p <+: q → ¬ q <+: p →
      (Value.obj (ms.putPath p v)).under? q = (Value.obj ms).under? q) ∧
    (∀ (ms : Members) (front : List String) (key : String) (rest : List String) (v : Value),
      (Value.obj (ms.putPath (front ++ key :: rest) v)).keysUnder front =
        (Value.obj ms).keysUnder front ++
          if key ∈ (Value.obj ms).keysUnder front then [] else [key]) ∧
    (∀ (ms : Members) (path : List String) (v w : Value),
      (ms.putPath path v).putPath path w = ms.putPath path w) ∧
    ∀ (ms : Members) (p q : List String) (v w : Value), ¬ p <+: q → ¬ q <+: p →
      (Value.obj ((ms.putPath p v).putPath q w)).Reordered
        (.obj ((ms.putPath q w).putPath p v)) ∧
      ((Value.obj ms).Keyed → v.Keyed → w.Keyed →
        (Value.obj ((ms.putPath p v).putPath q w)).agrees
          (.obj ((ms.putPath q w).putPath p v)) = true) := by
  have hne : ∀ p q : List String, ¬ p <+: q → p ≠ [] := fun _ _ h hp => h (hp ▸ List.nil_prefix)
  refine ⟨fun ms path v h => ?_, fun ms p q v hp hq => ?_, fun ms front key rest v => ?_,
    fun ms path v w => ?_, fun ms p q v w hp hq => ?_⟩
  · rw [Members.obj_putPath ms h]
    exact Value.under?_write _ path v
  · rw [Members.obj_putPath ms (hne p q hp)]
    exact Value.under?_write_of_apart hp hq _ v
  · rw [Members.obj_putPath ms (by simp)]
    exact Value.keysUnder_write front key rest _ v
  · cases path with
    | nil => rfl
    | cons key path =>
        have hwrite := (Value.obj ms).write_write (key :: path) v w
        exact Value.obj.inj hwrite
  · have hswap := Value.write_comm hp hq (.obj ms) v w
    simp only [← Members.obj_putPath _ (hne p q hp), ← Members.obj_putPath _ (hne q p hq)] at hswap
    refine ⟨hswap, fun hms hv hw => hswap.agrees ?_⟩
    have hkeyed := (hms.write hv p).write hw q
    rwa [← Members.obj_putPath _ (hne p q hp), ← Members.obj_putPath _ (hne q p hq)] at hkeyed

/-- An object with a list where the paths of the next statement go through. -/
def listedSource : Members := [("source", .arr [.bool true]), ("name", .str "Sales")]

theorem Members.putPath_writes_listedSource :
    (Value.obj (listedSource.putPath ["source", "type"] (.str "m"))).under? ["source", "type"] =
        some (.str "m") ∧
      (Value.obj (listedSource.putPath ["source", "type"] (.str "m"))).under? ["name"] =
        some (.str "Sales") ∧
      (Value.obj ((listedSource.putPath ["source", "type"] (.str "m")).putPath
        ["source", "expression"] .null)).keysUnder ["source"] = ["type", "expression"] ∧
      (Value.obj ((listedSource.putPath ["source", "expression"] .null).putPath
        ["source", "type"] (.str "m"))).keysUnder ["source"] = ["expression", "type"] ∧
      (Value.obj ((listedSource.putPath ["source", "type"] (.str "m")).putPath
        ["source", "expression"] .null)).agrees
        (.obj ((listedSource.putPath ["source", "expression"] .null).putPath
          ["source", "type"] (.str "m"))) = true := by
  obtain ⟨hread, hframe, hkeys, -, hswap⟩ := Members.putPath_writes
  have hkeyed : (Value.obj listedSource).Keyed := by decide
  refine ⟨hread _ _ _ (by decide), ?_, ?_, ?_, ?_⟩
  · exact hframe _ ["source", "type"] ["name"] _ (by decide) (by decide)
  · exact hkeys _ ["source"] "expression" [] _
  · exact hkeys _ ["source"] "type" [] _
  · exact (hswap _ _ _ _ _ (by decide) (by decide)).2 hkeyed (Value.keyed_str "m") Value.keyed_null

end Tabular.Json
