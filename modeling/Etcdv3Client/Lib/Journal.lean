import Mathlib.Data.List.Basic
import Mathlib.Logic.Function.Basic

/-!
# Content and journal

A map from keys to values, and a journal of what was done to it: each entry
gives one key a value, or takes it away. A copy of some keys that is given
the entries of those keys stays the copy, wherever the journal is cut.
-/

namespace Journal

variable {K V E : Type*} [DecidableEq K] (key : E → K) (value : E → Option V)

/-- The content after the entries, oldest first. -/
def play (c : K → Option V) (es : List E) : K → Option V :=
  es.foldl (fun c e => Function.update c (key e) (value e)) c

/-- The content of the selected keys. -/
def restrict (sel : K → Bool) (c : K → Option V) (k : K) : Option V :=
  if sel k then c k else none

@[simp] theorem play_nil (c : K → Option V) : play key value c [] = c := rfl

theorem play_cons (c : K → Option V) (e : E) (es : List E) :
    play key value c (e :: es)
      = play key value (Function.update c (key e) (value e)) es := rfl

theorem play_append (c : K → Option V) (es es' : List E) :
    play key value c (es ++ es') = play key value (play key value c es) es' :=
  List.foldl_append

theorem play_singleton (c : K → Option V) (e : E) :
    play key value c [e] = Function.update c (key e) (value e) := rfl

/-- Entries that all take their key away, in any order. -/
theorem play_clear {es : List E} (h : ∀ e ∈ es, value e = none) (c : K → Option V) (k : K) :
    play key value c es k = if k ∈ es.map key then none else c k := by
  induction es generalizing c with
  | nil => simp
  | cons e es ih =>
    have hclear := h e List.mem_cons_self
    rw [play_cons, ih (fun e' he' => h e' (List.mem_cons_of_mem _ he')), List.map_cons]
    by_cases hk : k = key e
    · simp [hk, hclear]
    · simp [hk]

/-- **A copy of some keys stays the copy** by the entries of those keys. -/
theorem play_restrict (sel : K → Bool) (c : K → Option V) (es : List E) :
    play key value (restrict sel c) (es.filter fun e => sel (key e))
      = restrict sel (play key value c es) := by
  induction es generalizing c with
  | nil => rfl
  | cons e es ih =>
    cases hsel : sel (key e) with
    | true =>
      have hcopy : Function.update (restrict sel c) (key e) (value e)
          = restrict sel (Function.update c (key e) (value e)) := by
        ext1 k
        by_cases hk : k = key e
        · subst hk
          simp [restrict, hsel]
        · simp [restrict, hk]
      rw [List.filter_cons, if_pos hsel, play_cons, play_cons, hcopy, ih]
    | false =>
      have hcopy : restrict sel c = restrict sel (Function.update c (key e) (value e)) := by
        ext1 k
        by_cases hk : k = key e
        · subst hk
          simp [restrict, hsel]
        · simp [restrict, hk]
      rw [List.filter_cons, if_neg (by simp [hsel]), play_cons, hcopy, ih]

end Journal
