/-!
# Keyed lists

A mapping is a list of pairs whose order is the order of insertion. Storing
under a present key keeps the key's place; a new key goes to the end. Where the
keys are indices the list is ascending, and `putIndex` keeps it so.
-/

namespace AtomLines.Keyed

variable {κ α : Type} [DecidableEq κ]

def get? (k : κ) : List (κ × α) → Option α
  | [] => none
  | (k', v) :: rest => if k' = k then some v else get? k rest

def put (k : κ) (v : α) : List (κ × α) → List (κ × α)
  | [] => [(k, v)]
  | (k', v') :: rest => if k' = k then (k, v) :: rest else (k', v') :: put k v rest

def keys (entries : List (κ × α)) : List κ :=
  entries.map Prod.fst

theorem get?_put_self (k : κ) (v : α) (entries : List (κ × α)) : get? k (put k v entries) = some v := by
  induction entries with
  | nil => simp [put, get?]
  | cons e rest ih => by_cases h : e.1 = k <;> simp [put, get?, h, ih]

theorem get?_put_of_ne {k k' : κ} (h : k ≠ k') (v : α) (entries : List (κ × α)) :
    get? k' (put k v entries) = get? k' entries := by
  induction entries with
  | nil => simp [put, get?, h]
  | cons e rest ih =>
    by_cases he : e.1 = k
    · have : e.1 ≠ k' := fun e' => h (he.symm.trans e')
      simp [put, get?, he, h]
    · by_cases he' : e.1 = k'
      · simp [put, get?, he', h.symm]
      · simp [put, get?, he, he', ih]

theorem keys_put (k : κ) (v : α) (entries : List (κ × α)) :
    keys (put k v entries) = if k ∈ keys entries then keys entries else keys entries ++ [k] := by
  induction entries with
  | nil => simp [put, keys]
  | cons e rest ih =>
    simp only [keys] at ih
    by_cases h : e.1 = k
    · simp [put, keys, h]
    · have h' : k ≠ e.1 := fun e' => h e'.symm
      simp only [put, h, if_false, keys, List.map_cons, ih, List.mem_cons, h', false_or]
      split <;> simp_all

theorem nodup_keys_put {k : κ} {v : α} {entries : List (κ × α)} (h : (keys entries).Nodup) :
    (keys (put k v entries)).Nodup := by
  rw [keys_put]
  split
  · exact h
  · rw [List.nodup_append]
    refine ⟨h, by simp, ?_⟩
    intro a ha b hb e
    simp only [List.mem_singleton] at hb
    simp_all

/-! ## Ascending indices -/

def putIndex (i : Nat) (v : α) : List (Nat × α) → List (Nat × α)
  | [] => [(i, v)]
  | (j, w) :: rest =>
    if i < j then (i, v) :: (j, w) :: rest
    else if i = j then (i, v) :: rest
    else (j, w) :: putIndex i v rest

omit [DecidableEq κ] in
theorem mem_keys_putIndex {i j : Nat} {v : α} {entries : List (Nat × α)} :
    j ∈ keys (putIndex i v entries) ↔ j = i ∨ j ∈ keys entries := by
  induction entries with
  | nil => simp [putIndex, keys]
  | cons e rest ih =>
    simp only [keys] at ih
    simp only [putIndex, keys]
    split
    · simp
    · split
      · rename_i h
        simp [h]
      · simp only [List.map_cons, List.mem_cons, ih]
        exact or_left_comm

theorem get?_putIndex_self (i : Nat) (v : α) (entries : List (Nat × α)) :
    get? i (putIndex i v entries) = some v := by
  induction entries with
  | nil => simp [putIndex, get?]
  | cons e rest ih =>
    simp only [putIndex]
    split
    · simp [get?]
    · split
      · simp [get?]
      · rename_i h
        simp [get?, Ne.symm h, ih]

end AtomLines.Keyed
