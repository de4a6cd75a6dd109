/- What the lines of a query say: which step binds which name, and what each step reads. -/
import Tabular.Proofs.Query.Naming
import Tabular.Proofs.Text.Replace

namespace Tabular.Query
variable {previous name : String} {steps : List (Step × String)} {i : Nat}

/-- What a stored argument becomes in a call: nothing but the marks in it is replaced, and each of
    them by the name of the step before. -/
inductive ArgumentText (previous : String) : Option String → String → Prop where
  | absent : ArgumentText previous none " null"
  | given {text : String} {out : List Char} :
      Text.Replaced previousMark.toList previous.toList text.toList out →
      ArgumentText previous (some text) (" " ++ String.ofList out)

theorem argumentText_renderArgument (previous : String) (value : Option String) :
    ArgumentText previous value (renderArgument previous value) := by
  cases value with
  | none => exact .absent
  | some text => exact .given ((Text.replaced_iff (by decide)).mpr rfl)

theorem replace_previousStep (previous : String) :
    Text.replace previousMark previous previousStep = quotedName previous := by
  have hfirst : ¬ previousMark.toList <:+: ['#', '"'] ++ previousMark.toList.dropLast := by decide
  have hstep : previousStep.toList = ['#', '"'] ++ (previousMark.toList ++ ['"']) := by decide
  have hrest : ¬ previousMark.toList <:+: ['"'] := by decide
  rw [Text.replace, hstep, Text.replaceChars_of_first (by decide) hfirst,
    Text.replaceChars_of_absent hrest, String.ext_iff]
  simp [quotedName]

theorem renderArgument_previousStep (previous : String) :
    renderArgument previous (some previousStep) = " " ++ quotedName previous := by
  rw [renderArgument, replace_previousStep]

theorem length_bindingLines (previous : String) (steps : List (Step × String)) :
    (bindingLines previous steps).length = steps.length := by
  fun_induction bindingLines previous steps with
  | case1 => rfl
  | case2 => rfl
  | case3 previous step name next rest ih => simp only [List.length_cons, ih]

/-- Each line calls with the name of the line before it. -/
theorem getElem?_bindingLines {step : Step} {before : String}
    (hstep : steps[i]? = some (step, name))
    (hbefore : (previous :: steps.map Prod.snd)[i]? = some before) :
    (bindingLines previous steps)[i]? = some ("\t" ++ step.binding name before ++
      if i + 1 < steps.length then "," else "") := by
  fun_induction bindingLines previous steps generalizing i with
  | case1 => cases hstep
  | case2 previous first firstName =>
      cases i with
      | zero =>
          cases hstep
          cases hbefore
          simp
      | succ i => cases hstep
  | case3 previous first firstName next rest ih =>
      cases i with
      | zero =>
          cases hstep
          cases hbefore
          simp
      | succ i =>
          rw [List.getElem?_cons_succ] at hstep hbefore ⊢
          rw [ih hstep hbefore]
          simp

/-- A call has its arguments in order, and one that is the step before names that step. -/
theorem Step.call_arguments (step : Step) (previous : String) : ∃ arguments : List String,
    step.call previous = step.function ++ "(" ++ ",".intercalate arguments ++ ")" ∧
      List.Forall₂ (ArgumentText previous) (step.arguments.map Prod.snd) arguments ∧
      ∀ a : Nat, (step.arguments.map Prod.snd)[a]? = some (some previousStep) →
        arguments[a]? = some (" #\"" ++ previous ++ "\"") := by
  refine ⟨step.arguments.map fun arg => renderArgument previous arg.2, ?_, ?_, ?_⟩
  · rw [Step.call]
  · rw [List.forall₂_map_left_iff, List.forall₂_map_right_iff, List.forall₂_same]
    exact fun arg _ => argumentText_renderArgument previous arg.2
  · intro a ha
    rw [List.getElem?_map, Option.map_eq_some_iff] at ha
    obtain ⟨arg, harg, hvalue⟩ := ha
    rw [List.getElem?_map, harg, Option.map_some, hvalue, renderArgument_previousStep, quotedName,
      String.append_assoc, String.append_assoc]
    rfl

/-- Where names differ, only the one before a place is the name before that place. -/
theorem getElem?_eq_previous_iff {names : List String} (hnodup : names.Nodup) (hi : 0 < i)
    (h : ("" :: names)[i]? = some previous) (k : Nat) :
    names[k]? = some previous ↔ k + 1 = i := by
  obtain ⟨j, rfl⟩ := Nat.exists_eq_add_one.mpr hi
  rw [List.getElem?_cons_succ] at h
  constructor
  · intro hk
    have hlt := (List.getElem?_eq_some_iff.mp hk).1
    rw [(List.getElem?_inj hlt hnodup).mp (hk.trans h.symm)]
  · intro hk
    rw [Nat.succ_inj.mp hk, h]

/-- Sets some arguments, one after the other. -/
def Step.setArguments (step : Step) (sets : List (String × Option String)) : Step :=
  sets.foldl (fun step set => step.setArgument set.1 set.2) step

/-- An argument is as it was set last. -/
theorem Step.arguments_setArguments (step : Step) (sets : List (String × Option String)) :
    (step.setArguments sets).arguments = step.arguments.map fun arg =>
      (arg.1, (sets.reverse.lookup arg.1).getD arg.2) := by
  induction sets generalizing step with
  | nil => simp [Step.setArguments]
  | cons set sets ih =>
      rw [Step.setArguments, List.foldl_cons, ← Step.setArguments, ih, Step.setArgument,
        List.map_map]
      refine List.map_congr_left fun arg _ => ?_
      rw [List.reverse_cons, List.lookup_append, Function.comp_apply]
      by_cases h : arg.1 = set.1
      · rw [if_pos h, h, List.lookup_cons, beq_self_eq_true]
        cases sets.reverse.lookup set.1 <;> rfl
      · rw [if_neg h, List.lookup_cons, beq_eq_false_iff_ne.mpr h, List.lookup_nil, Option.or_none]

theorem lookup_map_set (args : List (String × Option String)) (key : String)
    (text : Option String) (key' : String) :
    (args.map fun arg => if arg.1 = key then (key, text) else arg).lookup key' =
      (args.lookup key').map fun old => if key' = key then text else old := by
  induction args with
  | nil => rfl
  | cons arg args ih =>
      obtain ⟨name, old⟩ := arg
      rw [List.map_cons, List.lookup_cons]
      by_cases hname : name = key
      · rw [if_pos hname, List.lookup_cons, ← hname]
        cases hfirst : key' == name with
        | true => rw [Option.map_some, if_pos (eq_of_beq hfirst)]
        | false => rw [hname, ih]
      · rw [if_neg hname, List.lookup_cons]
        cases hfirst : key' == name with
        | true => rw [Option.map_some, if_neg (eq_of_beq hfirst ▸ hname)]
        | false => exact ih

/-- What is set is what is found under its key, be it an argument of the function or not. -/
theorem Step.argument?_setArgument (step : Step) (key : String) (text : Option String)
    (key' : String) : (step.setArgument key text).argument? key' =
      if key' = key then text else step.argument? key' := by
  rw [Step.argument?, Step.setArgument, List.lookup_append, lookup_map_set]
  by_cases hkey : key' = key
  · subst hkey
    cases hlookup : step.arguments.lookup key' with
    | some old => simp
    | none =>
        have hnot : ¬ (step.arguments.any fun arg => arg.1 == key') = true := by
          simp only [List.lookup_eq_none_iff, bne_iff_ne] at hlookup
          simp only [List.any_eq_true, beq_iff_eq, not_exists, not_and]
          exact fun arg harg => (hlookup arg harg).symm
        simp [hnot]
  · have hothers : (if step.arguments.any fun arg => arg.1 == key then step.others
        else (key, text) :: step.others).lookup key' = step.others.lookup key' := by
      split
      · rfl
      · rw [List.lookup_cons, beq_eq_false_iff_ne.mpr hkey]
    simp only [if_neg hkey, Option.map_id', hothers, Step.argument?, List.lookup_append]
theorem Step.argument?_setArguments (step : Step) (sets : List (String × Option String))
    (key : String) : (step.setArguments sets).argument? key =
      (sets.reverse.lookup key).getD (step.argument? key) := by
  induction sets generalizing step with
  | nil => rfl
  | cons set sets ih =>
      rw [Step.setArguments, List.foldl_cons, ← Step.setArguments, ih, Step.argument?_setArgument,
        List.reverse_cons, List.lookup_append]
      cases sets.reverse.lookup key with
      | some text => rfl
      | none =>
          rw [List.lookup_cons, Option.none_or, Option.getD_none]
          by_cases h : key = set.1
          · rw [if_pos h, beq_iff_eq.mpr h]
            rfl
          · rw [if_neg h, beq_eq_false_iff_ne.mpr h]
            rfl

/-- The lines of a query. They are `let`, one line for each step, `in`, and the name of the last
    step where there is one. The line of a step binds its name, calls its function with its arguments
    in order, each as it was set last, and ends in a comma unless it is the last one. In its
    arguments every mark, and nothing else, gives way to the name of the step before, which is empty
    for the first step and the name that exactly one line, the one before, binds for the others. -/
theorem Chain.lines_bind (chain : Chain) (numbering : Numbering) :
    ∃ names bindings : List String,
      names = chain.names numbering ∧ names.length = chain.length ∧
      bindings.length = chain.length ∧
      chain.lines numbering = "let" :: (bindings ++ "in" ::
        names.getLast?.toList.map fun last => "\t#\"" ++ last ++ "\"") ∧
      (∀ (i : Nat) (step : Step), chain[i]? = some step →
        ∃ (name previous : String) (arguments : List String),
          names[i]? = some name ∧ ("" :: names)[i]? = some previous ∧
          bindings[i]? = some ("\t#\"" ++ name ++ "\" = " ++ step.function ++ "(" ++
            ",".intercalate arguments ++ ")" ++ if i + 1 < chain.length then "," else "") ∧
          List.Forall₂ (ArgumentText previous) (step.arguments.map Prod.snd) arguments ∧
          (∀ a : Nat, (step.arguments.map Prod.snd)[a]? = some (some previousStep) →
            arguments[a]? = some (" #\"" ++ previous ++ "\"")) ∧
          (0 < i → ∀ k : Nat, names[k]? = some previous ↔ k + 1 = i)) ∧
      ∀ (step : Step) (sets : List (String × Option String)),
        (step.setArguments sets).arguments = step.arguments.map fun arg =>
          (arg.1, (sets.reverse.lookup arg.1).getD arg.2) := by
  have hlength : (chain.names numbering).length = chain.length := by
    rw [Chain.names, Numbering.length_names, List.length_map]
  have hzip : (chain.zip (chain.names numbering)).length = chain.length := by
    rw [List.length_zip, hlength, min_self]
  have hnodup : (chain.names numbering).Nodup := Numbering.nodup_names numbering _
  refine ⟨chain.names numbering, bindingLines "" (chain.zip (chain.names numbering)), rfl, hlength,
    (length_bindingLines _ _).trans hzip, ?_, ?_, Step.arguments_setArguments⟩
  · rw [Chain.lines, resultLine]
    cases (chain.names numbering).getLast? <;> rfl
  · intro i step hstep
    have hi : i < chain.length := (List.getElem?_eq_some_iff.mp hstep).1
    obtain ⟨name, hname⟩ : ∃ name, (chain.names numbering)[i]? = some name :=
      ⟨_, List.getElem?_eq_getElem (hlength ▸ hi)⟩
    obtain ⟨previous, hprevious⟩ : ∃ previous, ("" :: chain.names numbering)[i]? = some previous :=
      ⟨_, List.getElem?_eq_getElem (by rw [List.length_cons, hlength]; omega)⟩
    obtain ⟨arguments, hcall, htexts, hsources⟩ := step.call_arguments previous
    have hbefore : ("" :: (chain.zip (chain.names numbering)).map Prod.snd)[i]? = some previous := by
      rwa [List.map_snd_zip hlength.le]
    have hline := getElem?_bindingLines (List.getElem?_zip_eq_some.mpr ⟨hstep, hname⟩) hbefore
    refine ⟨name, previous, arguments, hname, hprevious, ?_, htexts, hsources,
      fun hpos => getElem?_eq_previous_iff hnodup hpos hprevious⟩
    have hopen : "\t#\"" = "\t" ++ "#\"" := by decide
    have hclose : "\" = " = "\"" ++ " = " := by decide
    rw [hline, hzip, Step.binding, hcall, quotedName, hopen, hclose]
    simp only [String.append_assoc]

end Tabular.Query
