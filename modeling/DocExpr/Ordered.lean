/-!
# Ordered sets

A finite set is the ascending list of its members.  `Ordered.ofList` puts any list in that form, so
the order and the repetitions of what was given are forgotten.
-/

namespace DocExpr.Ordered

variable {α : Type} [LT α] [DecidableLT α] [DecidableEq α]

/-- Adds a member to an ascending list. -/
def insert (x : α) : List α → List α
  | [] => [x]
  | y :: rest => if x = y then y :: rest else if x < y then x :: y :: rest else y :: insert x rest

/-- The members of a list, each once and in ascending order. -/
def ofList : List α → List α
  | [] => []
  | x :: rest => insert x (ofList rest)

theorem mem_insert (x y : α) (l : List α) : y ∈ insert x l ↔ y = x ∨ y ∈ l := by
  induction l with
  | nil => simp [insert]
  | cons z rest ih =>
    by_cases hxz : x = z
    · simp [insert, hxz]
    · by_cases hlt : x < z
      · simp [insert, hxz, hlt]
      · simp only [insert, hxz, hlt, ↓reduceIte, List.mem_cons, ih]
        exact or_left_comm

/-- The least member of a list. -/
def least? : List α → Option α
  | [] => none
  | x :: rest =>
    match least? rest with
    | none => some x
    | some y => if y < x then some y else some x

/-- Nothing is added and nothing is lost. -/
theorem mem_ofList (y : α) (l : List α) : y ∈ ofList l ↔ y ∈ l := by
  induction l with
  | nil => simp [ofList]
  | cons x rest ih => simp [ofList, mem_insert, ih]

end DocExpr.Ordered
