/- Operations that can change places: either order has the same results and leads to the same
   state. -/
import Tabular.Proofs.Model.Lookup

namespace Tabular.Model
variable {σ ρ ρ' : Type} {op op' : σ → Outcome σ} {view : σ → ρ} {view' : σ → ρ'} {s : σ}
  {t : Table} {ts ts' : List Table} {a b name : String} {edit edit' : Table → Outcome Table}

/-- Two operations of which neither changes what the other returns, a fault or a view of the state
    that it makes, and which lead to the same state in either order. -/
structure Independent (op op' : σ → Outcome σ) (view : σ → ρ) (view' : σ → ρ') (s : σ) :
    Prop where
  first : (told (op (attempt s op'))).map view = (told (op s)).map view
  second : (told (op' (attempt s op))).map view' = (told (op' s)).map view'
  state : attempt (attempt s op) op' = attempt (attempt s op') op

theorem Independent.symm (h : Independent op op' view view' s) :
    Independent op' op view' view s := ⟨h.second, h.first, h.state.symm⟩

theorem map_comp_congr {τ : Type} {x y : Except Fault σ} (h : x.map view = y.map view)
    (f : ρ → τ) : x.map (f ∘ view) = y.map (f ∘ view) := by
  have hcomp : ∀ z : Except Fault σ, z.map (f ∘ view) = (z.map view).map f := by
    intro z
    cases z <;> rfl
  rw [hcomp, hcomp, h]

theorem Independent.comp {τ τ' : Type} (h : Independent op op' view view' s) (f : ρ → τ)
    (f' : ρ' → τ') : Independent op op' (f ∘ view) (f' ∘ view') s :=
  ⟨map_comp_congr h.first f, map_comp_congr h.second f', h.state⟩

theorem exists_error_of_map {x y : Outcome σ} {failure : Failure σ}
    (h : (told x).map view = (told y).map view) (hy : y = .error failure) :
    ∃ failure', x = .error failure' := by
  subst hy
  cases x with
  | error failure' => exact ⟨failure', rfl⟩
  | ok s' => cases h

/-- An operation that fails before and after the other is not in its way. -/
theorem Independent.of_error {failure : Failure σ} (hop : Atomic op) (heq : op s = .error failure)
    (hfirst : (told (op (attempt s op'))).map view = (told (op s)).map view) :
    Independent op op' view view' s := by
  obtain ⟨_, hfails⟩ := exists_error_of_map hfirst heq
  refine ⟨hfirst, ?_, ?_⟩
  · rw [hop.attempt_of_error heq]
  · rw [hop.attempt_of_error heq, hop.attempt_of_error hfails]

/-- Of operations that change nothing when they fail, only one that succeeds can be in the way of
    the other. -/
theorem Independent.of_ok (hop : Atomic op) (hop' : Atomic op')
    (hfirst : ∀ s', op' s = .ok s' → (told (op s')).map view = (told (op s)).map view)
    (hsecond : ∀ s', op s = .ok s' → (told (op' s')).map view' = (told (op' s)).map view')
    (hboth : ∀ s₁ s₂, op s = .ok s₁ → op' s = .ok s₂ → ∃ s', op' s₁ = .ok s' ∧ op s₂ = .ok s') :
    Independent op op' view view' s := by
  have first : (told (op (attempt s op'))).map view = (told (op s)).map view :=
    hop'.attempt_keeps (P := fun s' => (told (op s')).map view = (told (op s)).map view) hfirst rfl
  have second : (told (op' (attempt s op))).map view' = (told (op' s)).map view' :=
    hop.attempt_keeps (P := fun s' => (told (op' s')).map view' = (told (op' s)).map view') hsecond
      rfl
  cases heq : op s with
  | error failure => exact .of_error hop heq first
  | ok s₁ => cases heq' : op' s with
    | error failure => exact (Independent.of_error hop' heq' second).symm
    | ok s₂ =>
        obtain ⟨s', hs', hs''⟩ := hboth s₁ s₂ heq heq'
        refine ⟨first, second, ?_⟩
        rw [attempt_of_ok heq, attempt_of_ok heq', attempt_of_ok hs', attempt_of_ok hs'']

/-- The table of a name in a list. -/
def tableIn (name : String) (ts : List Table) : Except Fault Table :=
  found ts (fun t => t.name == name) (.missing .table name none)

/-- Changes the first table of a name in a list. -/
def editIn (name : String) (edit : Table → Outcome Table) :
    List Table → Outcome (List Table) :=
  editFirst (fun t => t.name == name) (.missing .table name none) edit

/-- Puts a table at the end of a list, unless its name is taken. -/
def insertIn (t : Table) (ts : List Table) : Outcome (List Table) :=
  if ts.any fun u => u.name == t.name then .error ⟨.duplicateTable t.name, ts⟩
  else .ok (ts ++ [t])

/-- Whether a change of a table leaves its name. -/
def KeepsName (edit : Table → Outcome Table) : Prop :=
  ∀ t t', edit t = .ok t' → t'.name = t.name

theorem tableIn_editIn (hedit : KeepsName edit) (hab : a ≠ b) (h : editIn a edit ts = .ok ts') :
    tableIn b ts' = tableIn b ts := by
  obtain ⟨i, t, t', hfirst, ht', rfl⟩ := exists_firstAt_of_editFirst h
  have ha : t.name = a := eq_of_beq hfirst.test
  have hne : (t.name == b) = false := beq_eq_false_iff_ne.mpr (ha ▸ hab)
  exact found_set hfirst.2 hne (by rwa [hedit t t' ht'])

theorem insertIn_eq_ok : insertIn t ts = .ok ts' ↔
    (¬ ∃ u, tableIn t.name ts = .ok u) ∧ ts' = ts ++ [t] := by
  rw [tableIn, exists_found, insertIn]
  split
  · rename_i hany
    exact iff_of_false (fun heq => nomatch heq) fun h => h.1 hany
  · rename_i hfree
    rw [Except.ok.injEq, eq_comm]
    exact (and_iff_right hfree).symm

theorem atomic_insertIn (t : Table) : Atomic (insertIn t) := fun ts => leaves_check _ ts _

theorem tableIn_insertIn (hb : t.name ≠ b) (h : insertIn t ts = .ok ts') :
    tableIn b ts' = tableIn b ts := by
  rw [(insertIn_eq_ok.mp h).2]
  exact found_append_of_not (beq_eq_false_iff_ne.mpr hb)

/-- What changing a table returns depends on this table only. -/
theorem map_tableIn_editIn (hedit : KeepsName edit) (name : String) (ts : List Table) :
    (told (editIn name edit ts)).map (tableIn name) =
      (tableIn name ts >>= fun t => told (edit t)).map Except.ok := by
  apply map_found_editFirst
  intro t t' heq
  rw [hedit t t' heq]

/-- What inserting a table returns depends on its name being there only. -/
theorem map_tableIn_insertIn (t : Table) (ts : List Table) :
    (told (insertIn t ts)).map (tableIn t.name) =
      match tableIn t.name ts with
      | .ok _ => .error (.duplicateTable t.name)
      | .error _ => .ok (.ok t) := by
  have hpresent : (∃ u, tableIn t.name ts = .ok u) ↔ ts.any fun u => u.name == t.name :=
    exists_found
  rw [insertIn]
  split
  · rename_i hany
    obtain ⟨u, hu⟩ := hpresent.mpr hany
    rw [hu]
    rfl
  · rename_i hany
    cases hu : tableIn t.name ts with
    | ok u => exact absurd (hpresent.mp ⟨u, hu⟩) hany
    | error fault =>
        have hfound : tableIn t.name (ts ++ [t]) = .ok t :=
          found_append (Bool.eq_false_iff.mpr hany) (beq_self_eq_true t.name)
        exact congrArg Except.ok hfound

theorem editIn_of_firstAt {i : Nat} {t t' : Table}
    (h : FirstAt (fun t => t.name == name) ts i t) (heq : edit t = .ok t') :
    editIn name edit ts = .ok (ts.set i t') := by
  rw [editIn, editFirst_of_firstAt h, heq]
  rfl

theorem independent_editIn (hedit : KeepsName edit) (hedit' : KeepsName edit')
    (hatomic : Atomic edit) (hatomic' : Atomic edit') (hab : a ≠ b) (ts : List Table) :
    Independent (editIn a edit) (editIn b edit') (tableIn a) (tableIn b) ts := by
  refine .of_ok (hatomic.editFirst _ _) (hatomic'.editFirst _ _) (fun ts₂ h => ?_)
    (fun ts₁ h => ?_) fun ts₁ ts₂ h h' => ?_
  · rw [map_tableIn_editIn hedit, map_tableIn_editIn hedit, tableIn_editIn hedit' hab.symm h]
  · rw [map_tableIn_editIn hedit', map_tableIn_editIn hedit', tableIn_editIn hedit hab h]
  · -- The two tables are at different places, and neither gets the name of the other.
    obtain ⟨i, t, t', hfirst, ht', rfl⟩ := exists_firstAt_of_editFirst h
    obtain ⟨j, u, u', hfirst', hu', rfl⟩ := exists_firstAt_of_editFirst h'
    have hij : i ≠ j := by
      rintro rfl
      cases hfirst.2.symm.trans hfirst'.2
      exact hab ((eq_of_beq hfirst.test).symm.trans (eq_of_beq hfirst'.test))
    have hname : (t'.name == b) = (t.name == b) := by rw [hedit t t' ht']
    have hname' : (u'.name == a) = (u.name == a) := by rw [hedit' u u' hu']
    refine ⟨(ts.set i t').set j u', ?_, ?_⟩
    · exact editIn_of_firstAt (hfirst'.set_of_ne hfirst.2 hname hij) hu'
    · rw [List.set_comm _ _ hij]
      exact editIn_of_firstAt (hfirst.set_of_ne hfirst'.2 hname' hij.symm) ht'

theorem independent_editIn_insertIn (hedit : KeepsName edit) (hatomic : Atomic edit)
    (ha : a ≠ t.name) (ts : List Table) :
    Independent (editIn a edit) (insertIn t) (tableIn a) (tableIn t.name) ts := by
  refine .of_ok (hatomic.editFirst _ _) (atomic_insertIn t) (fun ts₂ h => ?_)
    (fun ts₁ h => ?_) fun ts₁ ts₂ h h' => ?_
  · rw [map_tableIn_editIn hedit, map_tableIn_editIn hedit, tableIn_insertIn ha.symm h]
  · rw [map_tableIn_insertIn, map_tableIn_insertIn, tableIn_editIn hedit ha h]
  · obtain ⟨i, u, u', hfirst, hu', rfl⟩ := exists_firstAt_of_editFirst h
    have hi : i < ts.length := (List.getElem?_eq_some_iff.mp hfirst.2).1
    obtain ⟨hfree, rfl⟩ := insertIn_eq_ok.mp h'
    refine ⟨ts.set i u' ++ [t], ?_, ?_⟩
    · rw [insertIn_eq_ok, tableIn_editIn hedit ha h]
      exact ⟨hfree, rfl⟩
    · rw [← List.set_append_left _ _ hi]
      exact editIn_of_firstAt (hfirst.append [t]) hu'

end Tabular.Model
