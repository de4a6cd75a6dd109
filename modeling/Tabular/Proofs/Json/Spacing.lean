/- The written forms of a value differ in the white space between its parts. -/
import Tabular.Json.Printer
import Tabular.Json.Reader
import Tabular.Proofs.Json.Nesting

namespace Tabular.Json
variable {level : Nat} {items : List Value} {ms : Members} {v : Value}

/-- White space by level, in front of elements, members and closing brackets, and behind colons. -/
structure Spacing where
  gap : Nat → List Char
  colon : List Char
  gap_blank : ∀ level, ∀ c ∈ gap level, isBlank c = true
  colon_blank : ∀ c ∈ colon, isBlank c = true

variable {s : Spacing}

def Spacing.none : Spacing where
  gap := fun _ => []
  colon := []
  gap_blank := fun _ _ hc => absurd hc List.not_mem_nil
  colon_blank := fun _ hc => absurd hc List.not_mem_nil

def Spacing.lines : Spacing where
  gap := lineBreak
  colon := [' ']
  gap_blank := by
    intro level c hc
    rcases List.mem_cons.mp hc with rfl | hc
    · rfl
    · rw [List.eq_of_mem_replicate hc]
      rfl
  colon_blank := by
    intro c hc
    rw [List.mem_singleton.mp hc]
    rfl

mutual

def Value.spaced (s : Spacing) (level : Nat) : Value → List Char
  | .arr [] => ['[', ']']
  | .arr (v :: vs) =>
    '[' :: (s.gap (level + 1) ++ (Value.spacedItems s (level + 1) (v :: vs)
      ++ (s.gap level ++ [']'])))
  | .obj [] => ['\x7b', '\x7d']
  | .obj (m :: ms) =>
    '\x7b' :: (s.gap (level + 1) ++ (Value.spacedMembers s (level + 1) (m :: ms)
      ++ (s.gap level ++ ['\x7d'])))
  | v => v.compact

def Value.spacedItems (s : Spacing) (level : Nat) : List Value → List Char
  | [] => []
  | [v] => v.spaced s level
  | v :: w :: vs =>
    v.spaced s level ++ ',' :: (s.gap level ++ Value.spacedItems s level (w :: vs))

def Value.spacedMembers (s : Spacing) (level : Nat) : List (String × Value) → List Char
  | [] => []
  | [(k, v)] => quoted k ++ ':' :: (s.colon ++ v.spaced s level)
  | (k, v) :: m :: ms =>
    quoted k ++ ':' :: (s.colon ++ (v.spaced s level
      ++ ',' :: (s.gap level ++ Value.spacedMembers s level (m :: ms))))

end

mutual

theorem Value.compact_eq (level : Nat) : ∀ v : Value, v.compact = v.spaced .none level
  | .null => rfl
  | .bool _ => rfl
  | .num _ => rfl
  | .str _ => rfl
  | .arr [] => rfl
  | .arr (v :: vs) => by
      simp only [Value.compact, Value.spaced, Value.compactItems_eq (level + 1) (v :: vs)]
      rfl
  | .obj [] => rfl
  | .obj (m :: ms) => by
      simp only [Value.compact, Value.spaced, Value.compactMembers_eq (level + 1) (m :: ms)]
      rfl

theorem Value.compactItems_eq (level : Nat) : ∀ items : List Value,
    Value.compactItems items = Value.spacedItems .none level items
  | [] => rfl
  | [v] => Value.compact_eq level v
  | v :: w :: vs => by
      simp only [Value.compactItems, Value.spacedItems, Value.compact_eq level v,
        Value.compactItems_eq level (w :: vs)]
      rfl

theorem Value.compactMembers_eq (level : Nat) : ∀ ms : List (String × Value),
    Value.compactMembers ms = Value.spacedMembers .none level ms
  | [] => rfl
  | [(k, v)] => by
      simp only [Value.compactMembers, Value.spacedMembers, Value.compact_eq level v]
      rfl
  | (k, v) :: m :: ms => by
      simp only [Value.compactMembers, Value.spacedMembers, Value.compact_eq level v,
        Value.compactMembers_eq level (m :: ms)]
      rfl

end

mutual

theorem Value.pretty_eq (level : Nat) : ∀ v : Value, v.pretty level = v.spaced .lines level
  | .null => rfl
  | .bool _ => rfl
  | .num _ => rfl
  | .str _ => rfl
  | .arr [] => rfl
  | .arr (v :: vs) => by
      simp only [Value.pretty, Value.spaced, Value.prettyItems_eq (level + 1) (v :: vs)]
      rfl
  | .obj [] => rfl
  | .obj (m :: ms) => by
      simp only [Value.pretty, Value.spaced, Value.prettyMembers_eq (level + 1) (m :: ms)]
      rfl

theorem Value.prettyItems_eq (level : Nat) : ∀ items : List Value,
    Value.prettyItems level items = Value.spacedItems .lines level items
  | [] => rfl
  | [v] => Value.pretty_eq level v
  | v :: w :: vs => by
      simp only [Value.prettyItems, Value.spacedItems, Value.pretty_eq level v,
        Value.prettyItems_eq level (w :: vs)]
      rfl

theorem Value.prettyMembers_eq (level : Nat) : ∀ ms : List (String × Value),
    Value.prettyMembers level ms = Value.spacedMembers .lines level ms
  | [] => rfl
  | [(k, v)] => by
      simp only [Value.prettyMembers, Value.spacedMembers, Value.pretty_eq level v]
      rfl
  | (k, v) :: m :: ms => by
      simp only [Value.prettyMembers, Value.spacedMembers, Value.pretty_eq level v,
        Value.prettyMembers_eq level (m :: ms)]
      rfl

end

end Tabular.Json
