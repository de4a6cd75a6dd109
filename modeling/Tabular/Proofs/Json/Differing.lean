/- Values that are the same but for what stands at a path. -/
import Tabular.Proofs.Json.Path

namespace Tabular.Json
variable {R : Value → Value → Prop} {rest : Members} {key k : String} {path : List Branch}
  {v w x : Value} {settings : List (String × Value)}

/-- Two values that differ at a path only, where the one and the other are in a relation. -/
inductive Value.DiffersAt (R : Value → Value → Prop) : List Branch → Value → Value → Prop where
  | here {v w : Value} : R v w → Value.DiffersAt R [] v w
  | key {path : List Branch} {v w : Value} {name : String} {before : Members} (after : Members) :
      name ∉ before.keys → Value.DiffersAt R path v w → Value.DiffersAt R (.key name :: path)
        (.obj (before ++ (name, v) :: after)) (.obj (before ++ (name, w) :: after))
  | item {path : List Branch} {v w : Value} (before after : List Value) :
      Value.DiffersAt R path v w → Value.DiffersAt R (.item before.length :: path)
        (.arr (before ++ v :: after)) (.arr (before ++ w :: after))

/-- The members with other keys, in their order. -/
def Members.without (keys : List String) (ms : Members) : Members :=
  ms.filter fun m => m.1 ∉ keys

/-- A value that is present: null stands for none. -/
def Value.present? : Value → Option Value
  | .null => none
  | v => some v

/-- Two objects that have the same members but for the keys of some settings, which have their
    values in the second; a setting to null leaves its key absent. -/
structure Value.Rewrites (settings : List (String × Value)) (v w : Value) : Prop where
  before : v = .obj v.members
  after : w = .obj w.members
  others : w.members.without (settings.map Prod.fst) = v.members.without (settings.map Prod.fst)
  set : ∀ p ∈ settings, w.members.get? p.1 = p.2.present?

/-- Two objects of which the second has one more element at the end of the list of a key, or has
    this list when the first has none. -/
inductive Value.Appends (key : String) (x : Value) : Value → Value → Prop where
  | extend {before : Members} (items : List Value) (after : Members) : key ∉ before.keys →
      Value.Appends key x (.obj (before ++ (key, .arr items) :: after))
        (.obj (before ++ (key, .arr (items ++ [x])) :: after))
  | create {before after : Members} : key ∉ Members.keys (before ++ after) →
      Value.Appends key x (.obj (before ++ after)) (.obj (before ++ (key, .arr [x]) :: after))

theorem Members.get?_append_cons {before : Members} (h : key ∉ before.keys) (v : Value)
    (after : Members) : Members.get? (before ++ (key, v) :: after) key = some v := by
  induction before with
  | nil => rw [List.nil_append, Members.get?_cons, if_pos rfl]
  | cons m before ih =>
      obtain ⟨k, w⟩ := m
      simp only [Members.keys, List.map_cons, List.mem_cons, not_or] at h
      rw [List.cons_append, Members.get?_cons, if_neg (Ne.symm h.1), ih h.2]

theorem Members.get?_append_cons_of_ne (h : key ≠ k) (before after : Members) (v : Value) :
    Members.get? (before ++ (key, v) :: after) k = Members.get? (before ++ after) k := by
  induction before with
  | nil => rw [List.nil_append, List.nil_append, Members.get?_cons, if_neg h]
  | cons m before ih =>
      obtain ⟨k', u⟩ := m
      rw [List.cons_append, List.cons_append, Members.get?_cons, Members.get?_cons, ih]

theorem getElem?_append_cons_of_ne {α : Type} {before : List α} {i : Nat} (h : before.length ≠ i)
    (a b : α) (after : List α) : (before ++ a :: after)[i]? = (before ++ b :: after)[i]? := by
  have hset : before ++ b :: after = (before ++ a :: after).set before.length b := by
    rw [List.set_append_right _ _ (Nat.le_refl _), Nat.sub_self, List.set_cons_zero]
  rw [hset, List.getElem?_set_ne h]

/-- A path that parts from the one at which two values differ leads to the same in both. -/
theorem Value.DiffersAt.at?_eq (h : Value.DiffersAt R path v w) {other : List Branch}
    (hother : ¬ other <+: path) (hpath : ¬ path <+: other) : w.at? other = v.at? other := by
  induction h generalizing other with
  | here _ => exact absurd List.nil_prefix hpath
  | @key path v w name before after hname _ ih => cases other with
    | nil => exact absurd List.nil_prefix hother
    | cons branch rest => cases branch with
      | item i => rfl
      | key other =>
          rw [Value.at?_key, Value.at?_key]
          by_cases heq : other = name
          · subst heq
            rw [List.cons_prefix_cons, not_and] at hother hpath
            rw [Members.get?_append_cons hname, Members.get?_append_cons hname, Option.bind_some,
              Option.bind_some, ih (hother rfl) (hpath rfl)]
          · rw [Members.get?_append_cons_of_ne (Ne.symm heq),
              Members.get?_append_cons_of_ne (Ne.symm heq)]
  | @item path v w before after _ ih => cases other with
    | nil => exact absurd List.nil_prefix hother
    | cons branch rest => cases branch with
      | key name => rfl
      | item i =>
          rw [Value.at?_item, Value.at?_item]
          by_cases hi : before.length = i
          · subst hi
            rw [List.cons_prefix_cons, not_and] at hother hpath
            simp only [List.getElem?_append_right (Nat.le_refl _), Nat.sub_self,
              List.getElem?_cons_zero, Option.bind_some, ih (hother rfl) (hpath rfl)]
          · rw [getElem?_append_cons_of_ne hi w v]

namespace Members

@[simp] theorem without_nil (keys : List String) : Members.without keys [] = [] := rfl

theorem without_cons (keys : List String) (key : String) (v : Value) (ms : Members) :
    Members.without keys ((key, v) :: ms) =
      if key ∈ keys then ms.without keys else (key, v) :: ms.without keys := by
  rw [Members.without, List.filter_cons]
  by_cases hkey : key ∈ keys
  · simp [hkey, Members.without]
  · simp [hkey, Members.without]

theorem without_put {keys : List String} (ms : Members) (key : String) (v : Value) :
    (ms.put key v).without keys =
      if key ∈ keys then ms.without keys else (ms.without keys).put key v := by
  induction ms with
  | nil => rw [Members.put, without_cons, without_nil, Members.put]
  | cons m ms ih =>
      obtain ⟨k, w⟩ := m
      by_cases hk : k = key
      · subst hk
        rw [Members.put, if_pos rfl, without_cons, without_cons]
        by_cases hkey : k ∈ keys
        · simp only [hkey, if_true]
        · simp only [hkey, if_false, Members.put, if_true]
      · rw [Members.put, if_neg hk, without_cons, without_cons, ih]
        by_cases hkey : key ∈ keys
        · simp only [hkey, if_true]
        · by_cases hkeys : k ∈ keys
          · simp only [hkey, hkeys, if_true, if_false]
          · simp only [hkey, hkeys, hk, if_false, Members.put]

/-- Of what is written, other keys show what is written under them. -/
theorem without_putAll (keys : List String) (ms : Members) (pairs : List (String × Value)) :
    (ms.putAll pairs).without keys = (ms.without keys).putAll (Members.without keys pairs) := by
  induction pairs generalizing ms with
  | nil => rfl
  | cons p pairs ih =>
      obtain ⟨key, v⟩ := p
      rw [putAll_cons, ih, without_put, without_cons]
      split
      · rfl
      · rw [putAll_cons]

theorem get?_without {keys : List String} (h : key ∉ keys) (ms : Members) :
    (ms.without keys).get? key = ms.get? key := by
  induction ms with
  | nil => rfl
  | cons m ms ih =>
      obtain ⟨k, v⟩ := m
      rw [without_cons, get?_cons]
      split
      · rename_i hk
        rw [ih, if_neg]
        exact fun heq => h (heq ▸ hk)
      · rw [get?_cons, ih]

theorem has_without {keys : List String} (h : key ∉ keys) (ms : Members) :
    (ms.without keys).has key = ms.has key := by
  rw [Members.has, get?_without h, Members.has]

theorem without_pruneMembers (keys : List String) (ms : Members) :
    Members.without keys (Value.pruneMembers ms) = Value.pruneMembers (ms.without keys) := by
  induction ms with
  | nil => rfl
  | cons m ms ih =>
      obtain ⟨key, v⟩ := m
      rw [pruneMembers_cons, without_cons]
      split
      · split
        · exact ih
        · rename_i hv _
          rw [ih, pruneMembers_cons, if_pos hv]
      · rename_i hv
        rw [without_cons, ih]
        split
        · rfl
        · rw [pruneMembers_cons, if_neg hv]

end Members

theorem get?_pruneMembers_eq_present? {ms : Members}
    (h : Members.read (Value.pruneMembers ms) key = v) :
    Members.get? (Value.pruneMembers ms) key = v.present? := by
  cases v with
  | null => exact get?_pruneMembers_of_null h
  | _ => exact Members.get?_of_read h rfl

/-- Writing other values under some of the fields of an object rewrites these. -/
theorem Value.rewrites_putAll {ms : Members} {fields fields' : List (String × Value)}
    (hv : v = .obj (ms.putAll fields)) (hw : w = .obj (ms.putAll fields')) (hkeyed : w.Keyed)
    (hkeys : (fields'.map Prod.fst).Nodup)
    (hothers : Members.without (settings.map Prod.fst) fields' =
      Members.without (settings.map Prod.fst) fields)
    (hset : ∀ p ∈ settings, p ∈ fields' ∧ p.2.prune = p.2) :
    v.prune.Rewrites settings w.prune := by
  subst hv hw
  refine ⟨rfl, rfl, ?_, fun p hp => ?_⟩
  · simp only [Value.prune_obj, Value.members_obj, Members.without_pruneMembers,
      Members.without_putAll, hothers]
  · obtain ⟨hmem, hprune⟩ := hset p hp
    rw [Value.prune_obj, Value.members_obj]
    apply get?_pruneMembers_eq_present?
    rw [hkeyed.read_prune_putAll hkeys p hmem, hprune]

/-- What an object is as the value of one of its keys varies: the others, and the place of the
    key among them. -/
def Members.Slot (key : String) (rest : Members) (f : Value → Members) : Prop :=
  ∃ before after, key ∉ Members.keys before ∧ rest = before ++ after ∧
    ∀ v, f v = before ++ (key, v) :: after

namespace Members

/-- A key that is written has a place; when it was missing, the others are what there was. -/
theorem exists_slot_put (ms : Members) (key : String) :
    ∃ rest, (ms.get? key = none → rest = ms) ∧ Slot key rest (ms.put key) := by
  induction ms with
  | nil => exact ⟨[], fun _ => rfl, [], [], List.not_mem_nil, rfl, fun _ => rfl⟩
  | cons m ms ih =>
      obtain ⟨k, w⟩ := m
      by_cases hk : k = key
      · subst hk
        refine ⟨ms, fun h => ?_, [], ms, List.not_mem_nil, rfl, fun v => ?_⟩
        · rw [get?_cons, if_pos rfl] at h
          cases h
        · rw [Members.put, if_pos rfl]
          rfl
      · obtain ⟨rest, hrest, before, after, hkey, rfl, hslot⟩ := ih
        refine ⟨(k, w) :: (before ++ after), fun h => ?_, (k, w) :: before, after, ?_, rfl,
          fun v => ?_⟩
        · rw [get?_cons, if_neg hk] at h
          rw [hrest h]
        · exact List.not_mem_cons_of_ne_of_not_mem (Ne.symm hk) hkey
        · rw [Members.put, if_neg hk, hslot, List.cons_append]

theorem Slot.put {f : Value → Members} (h : Slot key rest f) (hk : key ≠ k) (v : Value) :
    Slot key (rest.put k v) fun w => (f w).put k v := by
  obtain ⟨before, after, hkey, rfl, hslot⟩ := h
  obtain ⟨before', after', hkeys, hwith, hwithout⟩ := put_beside hk before after v
  refine ⟨before', after', hkeys hkey, hwithout, fun w => ?_⟩
  simp only [hslot, hwith]

theorem keys_append (ms ns : Members) : Members.keys (ms ++ ns) = ms.keys ++ ns.keys :=
  List.map_append

theorem keys_cons (key : String) (v : Value) (ms : Members) :
    Members.keys ((key, v) :: ms) = key :: ms.keys := rfl

/-- Objects with a value at the same place differ there as these values do, null members apart. -/
theorem Slot.differsAt {f : Value → Members} (h : Slot key rest f) (hv : v.isNull = false)
    (hw : w.isNull = false) (hdiffers : Value.DiffersAt R path v.prune w.prune) :
    Value.DiffersAt R (.key key :: path) (Value.obj (f v)).prune (Value.obj (f w)).prune := by
  obtain ⟨before, after, hkey, _, hslot⟩ := h
  rw [hslot, hslot, Value.prune_obj, Value.prune_obj, pruneMembers_append, pruneMembers_append,
    pruneMembers_cons, pruneMembers_cons, if_neg (Bool.eq_false_iff.mp hv),
    if_neg (Bool.eq_false_iff.mp hw)]
  exact .key _ (mt mem_keys_of_mem_pruneMembers hkey) hdiffers

theorem Slot.appends_extend {f : Value → Members} (h : Slot key rest f) (items : List Value)
    (x : Value) : Value.Appends key x.prune (Value.obj (f (.arr items))).prune
      (Value.obj (f (.arr (items ++ [x])))).prune := by
  obtain ⟨before, after, hkey, _, hslot⟩ := h
  simp only [hslot, Value.prune_obj, pruneMembers_append, pruneMembers_cons, Value.isNull,
    Bool.false_eq_true, if_false, Value.prune_arr, List.map_append, List.map_singleton]
  exact .extend _ _ (mt mem_keys_of_mem_pruneMembers hkey)

theorem Slot.appends_create {f : Value → Members} (h : Slot key rest f)
    (hkeys : (Members.keys (f (.arr [x]))).Nodup) :
    Value.Appends key x.prune (Value.obj rest).prune (Value.obj (f (.arr [x]))).prune := by
  obtain ⟨before, after, hkey, rfl, hslot⟩ := h
  rw [hslot, keys_append, keys_cons, List.nodup_append] at hkeys
  have hafter := (List.nodup_cons.mp hkeys.2.1).1
  have hrest : key ∉ Members.keys (before ++ after) := by
    rw [keys_append, List.mem_append, not_or]
    exact ⟨hkey, hafter⟩
  have hpruned := mt mem_keys_of_mem_pruneMembers hrest
  rw [pruneMembers_append] at hpruned
  simp only [hslot, Value.prune_obj, pruneMembers_append, pruneMembers_cons, Value.isNull,
    Bool.false_eq_true, if_false, Value.prune_arr, List.map_singleton]
  exact .create hpruned

/-- A null value leaves no trace of its key. -/
theorem Slot.prune_null {f : Value → Members} (h : Slot key rest f) :
    Value.pruneMembers (f .null) = Value.pruneMembers rest := by
  obtain ⟨before, after, _, rfl, hslot⟩ := h
  rw [hslot, pruneMembers_append, pruneMembers_append]
  rfl

/-- What an object is as the list of one of its keys varies; an empty list may be left out, or
    null may stand for it. -/
def Lists (key : String) (write : List Value → Members) : Prop :=
  ∃ rest f, Slot key rest f ∧
    ∀ items, write items = f (.arr items) ∨ items = [] ∧ (write [] = rest ∨ write [] = f .null)

theorem lists_put (ms : Members) (key : String) :
    Lists key fun items => ms.put key (.arr items) := by
  obtain ⟨rest, _, hslot⟩ := exists_slot_put ms key
  exact ⟨rest, ms.put key, hslot, fun _ => Or.inl rfl⟩

theorem Lists.put {write : List Value → Members} (h : Lists key write) (hk : key ≠ k) (v : Value) :
    Lists key fun items => (write items).put k v := by
  obtain ⟨rest, f, hslot, hwrite⟩ := h
  refine ⟨rest.put k v, _, hslot.put hk v, fun items => ?_⟩
  rcases hwrite items with heq | ⟨hitems, heq | heq⟩
  · exact Or.inl (congrArg (·.put k v) heq)
  · exact Or.inr ⟨hitems, Or.inl (congrArg (·.put k v) heq)⟩
  · exact Or.inr ⟨hitems, Or.inr (congrArg (·.put k v) heq)⟩

/-- Whether another key is present does not depend on the list. -/
theorem Lists.has_eq {write : List Value → Members} (h : Lists key write) (hk : key ≠ k) :
    ∃ present, ∀ items, (write items).has k = present := by
  obtain ⟨rest, f, ⟨before, after, _, rfl, hslot⟩, hwrite⟩ := h
  have hhas : ∀ v, (f v).has k = Members.has (before ++ after) k := by
    intro v
    rw [hslot, Members.has, Members.has, get?_append_cons_of_ne hk]
  refine ⟨Members.has (before ++ after) k, fun items => ?_⟩
  rcases hwrite items with heq | ⟨rfl, heq | heq⟩
  · rw [heq, hhas]
  · rw [heq]
  · rw [heq, hhas]

/-- One more element at the end of the list is all that is appended. -/
theorem Lists.appends {write : List Value → Members} (h : Lists key write) (items : List Value)
    (hkeys : (Members.keys (write (items ++ [x]))).Nodup) :
    Value.Appends key x.prune (Value.obj (write items)).prune
      (Value.obj (write (items ++ [x]))).prune := by
  obtain ⟨rest, f, hslot, hwrite⟩ := h
  have hafter : write (items ++ [x]) = f (.arr (items ++ [x])) :=
    (hwrite (items ++ [x])).resolve_right fun hnil => by simp at hnil
  rw [hafter] at hkeys ⊢
  rcases hwrite items with heq | ⟨rfl, heq | heq⟩
  · rw [heq]
    exact hslot.appends_extend items x
  · rw [heq]
    exact hslot.appends_create hkeys
  · rw [heq, Value.prune_obj, hslot.prune_null, ← Value.prune_obj]
    exact hslot.appends_create hkeys

theorem Lists.appends_map {α : Type} {f : α → Value} {as : List α} {a : α}
    {write : List Value → Members} (h : Lists key write)
    (hkeyed : (Value.obj (write ((as ++ [a]).map f))).Keyed) :
    Value.Appends key (f a).prune (Value.obj (write (as.map f))).prune
      (Value.obj (write ((as ++ [a]).map f))).prune := by
  rw [List.map_append, List.map_singleton] at hkeyed ⊢
  exact h.appends _ (Value.keyed_obj.mp hkeyed).1

end Members

/-- Lists that differ in one element differ there as this element does. -/
theorem Value.DiffersAt.map {α : Type} {f : α → Value} {as : List α} {i : Nat} {a a' : α}
    (hget : as[i]? = some a) (h : Value.DiffersAt R path (f a).prune (f a').prune) :
    Value.DiffersAt R (.item i :: path) (Value.arr (as.map f)).prune
      (Value.arr ((as.set i a').map f)).prune := by
  obtain ⟨hi, rfl⟩ := List.getElem?_eq_some_iff.mp hget
  obtain ⟨before, after, has, rfl, hset⟩ := @List.exists_of_set α i a' as hi
  rw [hset]
  generalize as[before.length] = a at has h
  subst has
  rw [Value.prune_arr, Value.prune_arr, List.map_append, List.map_append, List.map_append,
    List.map_append, List.map_cons, List.map_cons, List.map_cons, List.map_cons]
  simpa using
    Value.DiffersAt.item ((before.map f).map Value.prune) ((after.map f).map Value.prune) h

/-- Objects that differ in one element of a list differ there as this element does. -/
theorem Members.Lists.differsAt {α : Type} {f : α → Value} {as : List α} {i : Nat} {a a' : α}
    {write : List Value → Members} (h : Members.Lists key write) (hget : as[i]? = some a)
    (hdiffers : Value.DiffersAt R path (f a).prune (f a').prune) :
    Value.DiffersAt R (.key key :: .item i :: path) (Value.obj (write (as.map f))).prune
      (Value.obj (write ((as.set i a').map f))).prune := by
  obtain ⟨rest, g, hslot, hwrite⟩ := h
  have hpos : as ≠ [] := by
    rintro rfl
    cases hget
  have hbefore : write (as.map f) = g (.arr (as.map f)) :=
    (hwrite _).resolve_right fun hnil => hpos (List.map_eq_nil_iff.mp hnil.1)
  have hafter : write ((as.set i a').map f) = g (.arr ((as.set i a').map f)) :=
    (hwrite _).resolve_right fun hnil => hpos (by simpa using hnil.1)
  rw [hbefore, hafter]
  exact hslot.differsAt rfl rfl (.map hget hdiffers)

end Tabular.Json
