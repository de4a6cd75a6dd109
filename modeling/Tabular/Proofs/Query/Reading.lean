/- Literals of the query language, read back from their text. -/
import Mathlib.Data.List.Basic
import Tabular.Proofs.Text.Quoted
import Tabular.Query.Literal

namespace Tabular.Query
variable {α β : Type}

/-- Reads a value off the front of a text, and leaves what follows it. -/
abbrev Reader (α : Type) := StateT (List Char) Option α

def expect (mark : List Char) : Reader Unit := fun cs =>
  (cs.dropPrefix? mark).map fun rest => ((), rest)

/-- Reads a text between quotes, in which a quote is doubled. -/
def readText : Reader String := do
  expect ['"']
  let text ← Text.readDoubled '"'
  return String.ofList text

/-- Reads what stands in front of a closing brace. -/
def readBare : Reader String := fun cs =>
  some (String.ofList (cs.takeWhile (· ≠ '\x7d')), cs.dropWhile (· ≠ '\x7d'))

def readEnd : Reader (List α) := do
  expect ['\x7d']
  return []

/-- Reads the further items of a list, each behind a separator, and the brace that closes it;
    `limit` bounds their number. -/
def readItems (read : Reader α) (separator : List Char) : (limit : Nat) → Reader (List α)
  | 0 => failure
  | limit + 1 => readEnd <|> do
    expect separator
    let a ← read
    let as ← readItems read separator limit
    return a :: as

/-- Reads a list between braces. It has no more items than characters. -/
def readList (read : Reader α) (separator : List Char) : Reader (List α) := do
  let cs ← get
  expect ['\x7b']
  (do
    let a ← read
    let as ← readItems read separator cs.length
    return a :: as) <|> readEnd

/-- Reads a list of two values. -/
def readPair (readKey : Reader α) (readValue : Reader β) : Reader (α × β) := do
  expect ['\x7b']
  let key ← readKey
  expect [',', ' ']
  let value ← readValue
  expect ['\x7d']
  return (key, value)

/-- Reads a whole text. -/
def readAll (read : Reader α) (text : String) : Option α :=
  match read text.toList with
  | some (a, []) => some a
  | _ => none

/-- The texts of a list literal. -/
def readTexts : String → Option (List String) := readAll (readList readText [',', ' '])

/-- The texts of a literal of pairs, and what stands unquoted beside them. -/
def readTypes : String → Option (List (String × String)) :=
  readAll (readList (readPair readText readBare) [','])

variable {read : Reader α} {write : α → List Char} {cs rest separator : List Char} {a : α}
  {as : List α}

theorem bind_of_read {f : α → Reader β} (h : read cs = some (a, rest)) :
    (read >>= f) cs = f a rest := by
  simp only [bind, StateT.bind, h, Option.bind_some]

theorem expect_append (mark rest : List Char) : expect mark (mark ++ rest) = some ((), rest) := by
  rw [expect, List.dropPrefix?_append_of_beq rest (by simp)]
  rfl

theorem expect_of_ne {c d : Char} (h : c ≠ d) (cs : List Char) : expect [d] (c :: cs) = none := by
  have hne : (c == d) = false := beq_false_of_ne h
  simp [expect, List.dropPrefix?, hne]

/-- That a text is read as a value wherever no quote follows it. -/
def Reads (read : Reader α) (text : List Char) (a : α) : Prop :=
  ∀ rest, rest.head? ≠ some '"' → read (text ++ rest) = some (a, rest)

theorem reads_textLiteral (text : String) : Reads readText (textLiteral text).toList text := by
  intro rest hrest
  have hliteral : (textLiteral text).toList ++ rest =
      ['"'] ++ (Text.doubled '"' text.toList ++ '"' :: rest) := by
    simp [textLiteral]
  rw [hliteral, readText, bind_of_read (expect_append _ _),
    bind_of_read (Text.readDoubled_doubled hrest _), String.ofList_toList]
  rfl

theorem orElse_of_read {f g : Reader α} (h : f cs = some (a, rest)) :
    (f <|> g) cs = some (a, rest) := by
  change (f cs <|> g cs) = _
  rw [h]
  rfl

theorem orElse_of_none {f g : Reader α} (h : f cs = none) : (f <|> g) cs = g cs := by
  change (f cs <|> g cs) = _
  rw [h]
  rfl

theorem bind_of_none {f : α → Reader β} (h : read cs = none) : (read >>= f) cs = none := by
  simp only [bind, StateT.bind, h, Option.bind_none]

theorem bind_eq_some {f : α → Reader β} {b : β} :
    (read >>= f) cs = some (b, rest) ↔
      ∃ a mid, read cs = some (a, mid) ∧ f a mid = some (b, rest) := by
  simp only [bind, StateT.bind, Option.bind_eq_some_iff, Prod.exists]

theorem pure_eq_some {b : α} : (pure a : Reader α) cs = some (b, rest) ↔ a = b ∧ cs = rest := by
  change some (a, cs) = some (b, rest) ↔ _
  rw [Option.some.injEq, Prod.mk.injEq]

theorem eq_of_expect {mark : List Char} {u : Unit} (h : expect mark cs = some (u, rest)) :
    cs = mark ++ rest := by
  obtain ⟨_, hdrop, heq⟩ := Option.map_eq_some_iff.mp h
  obtain ⟨front, rfl, hfront⟩ := List.dropPrefix?_eq_some_iff.mp hdrop
  rw [eq_of_beq hfront, (Prod.mk.inj heq).2]

theorem orElse_cases {f g : Reader α} (h : (f <|> g) cs = some (a, rest)) :
    f cs = some (a, rest) ∨ g cs = some (a, rest) := by
  cases hf : f cs with
  | some _ =>
      rw [orElse_of_read hf] at h
      exact Or.inl h
  | none =>
      rw [orElse_of_none hf] at h
      exact Or.inr h

/-- That what a reader takes off the front of a text, for a value, is what is written for it. -/
def Written (read : Reader α) (write : α → String) : Prop :=
  ∀ cs a rest, read cs = some (a, rest) → cs = (write a).toList ++ rest

theorem readEnd_brace (rest : List Char) :
    (readEnd : Reader (List α)) ('\x7d' :: rest) = some ([], rest) :=
  bind_of_read (expect_append ['\x7d'] rest)

/-- The items behind the first one of a list, with the brace that closes it. -/
def further (separator : List Char) (write : α → List Char) (as : List α) (rest : List Char) :
    List Char :=
  as.flatMap (fun a => separator ++ write a) ++ '\x7d' :: rest

theorem further_cons (separator : List Char) (write : α → List Char) (a : α) (as : List α)
    (rest : List Char) : further separator write (a :: as) rest =
      separator ++ (write a ++ further separator write as rest) := by
  simp only [further, List.flatMap_cons, List.append_assoc]

theorem length_le_further (c : Char) (separator : List Char) (write : α → List Char)
    (as : List α) (rest : List Char) :
    as.length < (further (c :: separator) write as rest).length := by
  induction as with
  | nil => simp [further]
  | cons a as ih =>
      rw [further_cons, List.length_append, List.length_append, List.length_cons,
        List.length_cons]
      omega

/-- Neither a separator nor the brace is a quote. -/
theorem head?_further (separator : List Char) (write : α → List Char) (as : List α)
    (rest : List Char) : (further (',' :: separator) write as rest).head? ≠ some '"' := by
  cases as with
  | nil => simp [further]
  | cons a as => simp [further_cons]

theorem readItems_further (hread : ∀ a ∈ as, Reads read (write a) a) {limit : Nat}
    (hlimit : as.length < limit) (rest : List Char) :
    readItems read (',' :: separator) limit (further (',' :: separator) write as rest) =
      some (as, rest) := by
  induction as generalizing limit with
  | nil =>
      cases limit with
      | zero => exact absurd hlimit (Nat.not_lt_zero _)
      | succ limit => exact orElse_of_read (readEnd_brace rest)
  | cons a as ih =>
      cases limit with
      | zero => exact absurd hlimit (Nat.not_lt_zero _)
      | succ limit =>
          obtain ⟨ha, has⟩ := List.forall_mem_cons.mp hread
          have hend : (readEnd : Reader (List α))
              (further (',' :: separator) write (a :: as) rest) = none := by
            rw [further_cons]
            exact bind_of_none (expect_of_ne (by decide) _)
          rw [readItems, orElse_of_none hend, further_cons, bind_of_read (expect_append _ _),
            bind_of_read (ha _ (head?_further separator write as rest)),
            bind_of_read (ih has (Nat.lt_of_succ_lt_succ hlimit))]
          rfl

theorem intercalate_cons (separator cs : List Char) (css : List (List Char)) :
    separator.intercalate (cs :: css) = cs ++ css.flatMap fun cs => separator ++ cs := by
  induction css generalizing cs with
  | nil => rw [List.intercalate_singleton, List.flatMap_nil, List.append_nil]
  | cons cs' css ih =>
      rw [List.intercalate_cons_cons, ih, List.flatMap_cons, List.append_assoc, List.append_assoc]

/-- A list is read when its items are. -/
theorem reads_list (hread : ∀ a ∈ as, Reads read (write a) a)
    (hbrace : ∀ rest, read ('\x7d' :: rest) = none) :
    Reads (readList read (',' :: separator))
      ('\x7b' :: ((',' :: separator).intercalate (as.map write) ++ ['\x7d'])) as := by
  intro rest _
  cases as with
  | nil =>
      have hitem : ∀ f : α → Reader (List α), (read >>= f) ('\x7d' :: rest) = none :=
        fun f => bind_of_none (hbrace rest)
      change readList read _ (['\x7b'] ++ '\x7d' :: rest) = _
      rw [readList, bind_of_read rfl, bind_of_read (expect_append _ _), orElse_of_none (hitem _)]
      exact readEnd_brace rest
  | cons a as =>
      obtain ⟨ha, has⟩ := List.forall_mem_cons.mp hread
      have htext : '\x7b' :: ((',' :: separator).intercalate ((a :: as).map write) ++ ['\x7d']) ++
          rest = ['\x7b'] ++ (write a ++ further (',' :: separator) write as rest) := by
        rw [List.map_cons, intercalate_cons, List.flatMap_map]
        simp [further]
      have hlimit : as.length < (['\x7b'] ++
          (write a ++ further (',' :: separator) write as rest)).length := by
        have hlength := length_le_further ',' separator write as rest
        rw [List.length_append, List.length_append]
        omega
      rw [htext, readList, bind_of_read rfl, bind_of_read (expect_append _ _)]
      apply orElse_of_read
      rw [bind_of_read (ha _ (head?_further separator write as rest)),
        bind_of_read (readItems_further has hlimit rest)]
      rfl

theorem readAll_of_reads {text : String} (h : Reads read text.toList a) :
    readAll read text = some a := by
  have hread := h [] (by simp)
  rw [List.append_nil] at hread
  rw [readAll, hread]

theorem eq_of_readAll {form : α → String} {text : String} (hread : Written read form)
    (h : readAll read text = some a) : text = form a := by
  rw [readAll] at h
  split at h
  · rename_i a' hall
    cases h
    rw [String.ext_iff, hread _ _ _ hall, List.append_nil]
  · cases h

theorem toList_listLiteral (quote : Bool) (items : List String) :
    (listLiteral quote items).toList = '\x7b' ::
      ([',', ' '].intercalate (items.map fun text => (item quote text).toList) ++ ['\x7d']) := by
  simp [listLiteral, String.toList_intercalate, Function.comp_def]

theorem toList_pairsLiteral (quoteKeys quoteValues : Bool) (pairs : List (String × String)) :
    (pairsLiteral quoteKeys quoteValues pairs).toList = '\x7b' ::
      ([','].intercalate (pairs.map fun pair =>
        (listLiteral false [item quoteKeys pair.1, item quoteValues pair.2]).toList) ++
          ['\x7d']) := by
  simp [pairsLiteral, String.toList_intercalate, Function.comp_def]

theorem reads_listLiteral (texts : List String) :
    Reads (readList readText [',', ' ']) (listLiteral true texts).toList texts := by
  rw [toList_listLiteral]
  exact reads_list (fun text _ => reads_textLiteral text)
    fun rest => bind_of_none (expect_of_ne (by decide) rest)

/-- Whatever quotes, commas and braces are in the texts of a literal, it is read back as them. -/
theorem readTexts_listLiteral (texts : List String) :
    readTexts (listLiteral true texts) = some texts :=
  readAll_of_reads (reads_listLiteral texts)

/-- An item may hold what stands between two items. -/
example : readTexts "\x7b\"\"\", \"\"\", \"\"\x7d" = some ["\", \"", ""] := by cbv

theorem readBare_append {value : List Char} (h : '\x7d' ∉ value) (rest : List Char) :
    readBare (value ++ '\x7d' :: rest) = some (String.ofList value, '\x7d' :: rest) := by
  have hvalue : ∀ c ∈ value, decide (c ≠ '\x7d') = true := by
    intro c hc
    rw [decide_eq_true_eq]
    exact fun heq => h (heq ▸ hc)
  rw [readBare, List.takeWhile_append_of_pos hvalue, List.dropWhile_append_of_pos hvalue]
  simp

theorem reads_pair {readKey : Reader α} {readValue : Reader β} {key value : String} {b : β}
    (hkey : Reads readKey key.toList a)
    (hvalue : ∀ rest, readValue (value.toList ++ '\x7d' :: rest) = some (b, '\x7d' :: rest)) :
    Reads (readPair readKey readValue) (listLiteral false [key, value]).toList (a, b) := by
  intro rest _
  have htext : (listLiteral false [key, value]).toList ++ rest =
      ['\x7b'] ++ (key.toList ++ ([',', ' '] ++ (value.toList ++ '\x7d' :: rest))) := by
    rw [toList_listLiteral]
    simp [item]
  rw [htext, readPair, bind_of_read (expect_append _ _), bind_of_read (hkey _ (by simp)),
    bind_of_read (expect_append _ _), bind_of_read (hvalue rest)]
  exact bind_of_read (expect_append ['\x7d'] rest)

theorem reads_pairsLiteral {pairs : List (String × String)}
    (h : ∀ pair ∈ pairs, '\x7d' ∉ pair.2.toList) :
    Reads (readList (readPair readText readBare) [','])
      (pairsLiteral true false pairs).toList pairs := by
  rw [toList_pairsLiteral]
  refine reads_list (fun pair hpair => reads_pair (reads_textLiteral pair.1) fun rest => ?_)
    fun rest => bind_of_none (expect_of_ne (by decide) rest)
  rw [item, if_neg (by decide), readBare_append (h pair hpair), String.ofList_toList]

/-- Names of types have no braces, and so are read back beside quoted texts. -/
theorem readTypes_pairsLiteral {pairs : List (String × String)}
    (h : ∀ pair ∈ pairs, '\x7d' ∉ pair.2.toList) :
    readTypes (pairsLiteral true false pairs) = some pairs :=
  readAll_of_reads (reads_pairsLiteral h)

end Tabular.Query
