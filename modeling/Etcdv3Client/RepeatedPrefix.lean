import Mathlib.Logic.Function.Iterate
import Etcdv3Client.PrefixRange
import Etcdv3Client.RangeChain

/-!
# WithPrefix more than once

Its setter looks at the key of the request. An empty key it replaces by
"\0", so a second application takes that for the key asked for: the range
"\0" to "\0", which is every key, becomes the prefix range of "\0". Only
with plain `char` signed are the two the same.
-/

namespace Etcdv3Client

/-! ## One setter, repeated -/

section
variable {T : Type} [KeyRange T]

/-- The two requests select the same keys. -/
def SameSelection (req req' : T) : Prop := ∀ s, Requests req s ↔ Requests req' s

theorem SameSelection.of_range {req req' : T} (hk : KeyRange.key req = KeyRange.key req')
    (he : KeyRange.rangeEnd req = KeyRange.rangeEnd req') : SameSelection req req' := by
  intro s
  rw [Requests, Requests, hk, he]

theorem key_setPrefix (char : PlainChar) {req : T} (h : KeyRange.key req ≠ []) :
    KeyRange.key (setPrefix char req) = KeyRange.key req := by
  simp [setPrefix, h]

theorem rangeEnd_setPrefix (char : PlainChar) {req : T} (h : KeyRange.key req ≠ []) :
    KeyRange.rangeEnd (setPrefix char req) = getPrefixRangeEnd char (KeyRange.key req) := by
  simp [setPrefix, h]

theorem key_setPrefix_nil (char : PlainChar) {req : T} (h : KeyRange.key req = []) :
    KeyRange.key (setPrefix char req) = [0] := by
  simp [setPrefix, h]

theorem rangeEnd_setPrefix_nil (char : PlainChar) {req : T} (h : KeyRange.key req = []) :
    KeyRange.rangeEnd (setPrefix char req) = [0] := by
  simp [setPrefix, h]

/-- A key that is not empty is left as it is. -/
theorem key_iterate (char : PlainChar) {req : T} (h : KeyRange.key req ≠ []) (n : ℕ) :
    KeyRange.key ((setPrefix char)^[n] req) = KeyRange.key req := by
  induction n with
  | zero => rfl
  | succ n ih => rw [Function.iterate_succ_apply', key_setPrefix char (ih.symm ▸ h), ih]

/-- So every application computes the same range end. -/
theorem rangeEnd_iterate (char : PlainChar) {req : T} (h : KeyRange.key req ≠ []) (n : ℕ) :
    KeyRange.rangeEnd ((setPrefix char)^[n + 1] req)
      = getPrefixRangeEnd char (KeyRange.key req) := by
  have hk := key_iterate char h n
  rw [Function.iterate_succ_apply', rangeEnd_setPrefix char (hk.symm ▸ h), hk]

/-- On an empty key the second application and those after it find "\0". -/
theorem iterate_of_nil (char : PlainChar) {req : T} (h : KeyRange.key req = []) (n : ℕ) :
    KeyRange.key ((setPrefix char)^[n + 2] req) = [0] ∧
      KeyRange.rangeEnd ((setPrefix char)^[n + 2] req) = getPrefixRangeEnd char [0] := by
  have hk := key_setPrefix_nil char h
  have hne : KeyRange.key (setPrefix char req) ≠ [] := by simp [hk]
  rw [Function.iterate_succ_apply]
  exact ⟨(key_iterate char hne (n + 1)).trans hk,
    (rangeEnd_iterate char hne n).trans (congrArg _ hk)⟩

/-- Where `WithPrefix` repeated is `WithPrefix`. -/
def RepeatsPrefix (char : PlainChar) (k : Bytes) (n : ℕ) : Prop :=
  k ≠ [] ∨ n = 1 ∨ char = .signed

instance (char : PlainChar) (k : Bytes) (n : ℕ) : Decidable (RepeatsPrefix char k n) :=
  inferInstanceAs (Decidable (k ≠ [] ∨ n = 1 ∨ char = .signed))

/-- With plain `char` unsigned the prefix range of "\0" leaves out the key
"\1", which the range of every key has. -/
theorem not_sameSelection_unsigned {req : T} (h : KeyRange.key req = []) (n : ℕ) :
    ¬ SameSelection ((setPrefix .unsigned)^[n + 2] req) (setPrefix .unsigned req) := by
  intro hsame
  obtain ⟨hk, he⟩ := iterate_of_nil .unsigned h n
  have honce : Requests (setPrefix .unsigned req) [1] := by
    rw [requests_setPrefix_nil .unsigned h]
    decide
  have htwice := (hsame [1]).mpr honce
  rw [Requests, hk, he, getPrefixRangeEnd_zero_unsigned] at htwice
  exact absurd htwice (by decide)

/-- The setter of `WithPrefix`, applied `n` times and once. -/
theorem sameSelection_iterate_iff (char : PlainChar) {req : T} {n : ℕ} (hn : 1 ≤ n) :
    SameSelection ((setPrefix char)^[n] req) (setPrefix char req)
      ↔ RepeatsPrefix char (KeyRange.key req) n := by
  unfold RepeatsPrefix
  obtain ⟨m, rfl⟩ : ∃ m, n = m + 1 := ⟨n - 1, by omega⟩
  by_cases h : KeyRange.key req = []
  · cases m with
    | zero => exact iff_of_true (fun _ => Iff.rfl) (Or.inr (Or.inl rfl))
    | succ m =>
      cases char with
      | signed =>
        obtain ⟨hk, he⟩ := iterate_of_nil .signed h m
        refine iff_of_true (SameSelection.of_range ?_ ?_) (Or.inr (Or.inr rfl))
        · rw [hk, key_setPrefix_nil .signed h]
        · rw [he, rangeEnd_setPrefix_nil .signed h, getPrefixRangeEnd_zero]
      | unsigned =>
        refine iff_of_false (not_sameSelection_unsigned h m) ?_
        simp [h]
  · refine iff_of_true (SameSelection.of_range ?_ ?_) (Or.inl h)
    · rw [key_iterate char h, key_setPrefix char h]
    · rw [rangeEnd_iterate char h, rangeEnd_setPrefix char h]

end

/-- Calls that push one setter apply it as often. -/
theorem Options.apply_iterate {T : Type} (f : T → T) (o : Options T) (t : T) (n : ℕ) :
    ((fun o : Options T => o.push f)^[n] o).apply t = f^[n] (o.apply t) := by
  induction n with
  | zero => rfl
  | succ n ih =>
    rw [Function.iterate_succ_apply', Function.iterate_succ_apply', Options.apply_push, ih]

/-! ## The calls that contain WithPrefix -/

namespace RangeSetter

/-- The calls whose setters write the key or the range end. -/
def setsRange : RangeSetter → Bool
  | .withPrefix | .withRangeEnd _ | .withFromKey => true
  | _ => false

/-- The other setters leave both. -/
theorem set_frame (char : PlainChar) {c : RangeSetter} (h : c.setsRange = false)
    (req : RangeRequest) :
    (c.set char req).key = req.key ∧ (c.set char req).rangeEnd = req.rangeEnd := by
  cases c <;> first | exact ⟨rfl, rfl⟩ | cases h

end RangeSetter

/-- The setter reads the key alone, and writes no other field it reads. -/
theorem setPrefix_congr (char : PlainChar) {req req' : RangeRequest} (h : req.key = req'.key) :
    (setPrefix char req).key = (setPrefix char req').key ∧
      (setPrefix char req).rangeEnd = (setPrefix char req').rangeEnd := by
  have hkey : KeyRange.key req = KeyRange.key req' := h
  unfold setPrefix
  rw [hkey]
  split
  · exact ⟨rfl, rfl⟩
  · exact ⟨h, rfl⟩

/-- A chain without `WithRangeEnd` and `WithFromKey` leaves the key and the
range end that its `WithPrefix` calls alone would leave. -/
theorem range_of_chain (char : PlainChar) (req : RangeRequest) (cs : List RangeSetter)
    (hcs : ∀ c ∈ cs, c.setsRange = true → c = .withPrefix) :
    (cs.foldl (fun req c => c.set char req) req).key
        = ((setPrefix char)^[cs.count .withPrefix] req).key ∧
      (cs.foldl (fun req c => c.set char req) req).rangeEnd
        = ((setPrefix char)^[cs.count .withPrefix] req).rangeEnd := by
  induction cs using List.reverseRecOn with
  | nil => exact ⟨rfl, rfl⟩
  | append_singleton cs c ih =>
    obtain ⟨hk, he⟩ := ih fun c hc => hcs c (by simp [hc])
    rw [List.foldl_append, List.count_append]
    by_cases hset : c.setsRange = true
    · have hc := hcs c (by simp) hset
      subst hc
      rw [List.count_singleton_self, Function.iterate_succ_apply', List.foldl_cons,
        List.foldl_nil, RangeSetter.set_withPrefix_eq]
      exact setPrefix_congr char hk
    · obtain ⟨hk', he'⟩ := RangeSetter.set_frame char (by simpa using hset)
        (cs.foldl (fun req c => c.set char req) req)
      have hne : c ≠ .withPrefix := by
        intro hc
        subst hc
        exact hset rfl
      rw [List.count_singleton, if_neg (by simpa using hne)]
      exact ⟨hk'.trans hk, he'.trans he⟩

/-- The six calls that return the first or the last key of a prefix. -/
def firstAndLast : List RangeCall :=
  [.withFirstCreate, .withLastCreate, .withFirstKey, .withLastKey, .withFirstMod, .withLastMod]

theorem firstAndLast_expand : ∀ c ∈ firstAndLast,
    (RangeSetter.withPrefix :: c.expand).count .withPrefix = 2 ∧
      ∀ c' ∈ RangeSetter.withPrefix :: c.expand, c'.setsRange = true → c' = .withPrefix := by
  decide

/-- After `WithPrefix` each of them is a second `WithPrefix`. -/
theorem firstAndLast_repeat (char : PlainChar) (k : Bytes) {c : RangeCall}
    (hc : c ∈ firstAndLast) :
    SameSelection (Client.rangeRequest k (c.call char (RangeOptions.withPrefix char {})))
      ((setPrefix char)^[2] ({ key := k } : RangeRequest)) := by
  have hchain : c.call char (RangeOptions.withPrefix char {})
      = RangeCall.options char [.setter .withPrefix, c] := rfl
  have hexpand : RangeCall.expandAll [.setter .withPrefix, c] = .withPrefix :: c.expand := by
    simp [RangeCall.expandAll, RangeCall.expand]
  obtain ⟨htwice, honly⟩ := firstAndLast_expand c hc
  obtain ⟨hk, he⟩ := range_of_chain char { key := k } _ honly
  rw [hchain, RangeCall.rangeRequest_options, hexpand]
  rw [htwice] at hk he
  exact SameSelection.of_range hk he

/-! ## Main result -/

/-- **Asking twice is asking once.** For every key, either signedness of
plain `char` and the three builders: `n` calls of `WithPrefix` in a row
select what one call selects, if and only if the key is not empty, or `n`
is one, or plain `char` is signed. `WithPrefix` followed by one of the six
calls that contain it is two calls. -/
theorem withPrefix_repeated_iff (char : PlainChar) (k : Bytes) {n : ℕ} (hn : 1 ≤ n) :
    (SameSelection (Client.rangeRequest k ((RangeOptions.withPrefix char)^[n] {}))
        (Client.rangeRequest k (RangeOptions.withPrefix char {})) ↔ RepeatsPrefix char k n) ∧
    (SameSelection (Client.deleteRangeRequest k ((DeleteRangeOptions.withPrefix char)^[n] {}))
        (Client.deleteRangeRequest k (DeleteRangeOptions.withPrefix char {}))
      ↔ RepeatsPrefix char k n) ∧
    (SameSelection (Client.watchSingleRequest k ((WatchOptions.withPrefix char)^[n] {}))
        (Client.watchSingleRequest k (WatchOptions.withPrefix char {}))
      ↔ RepeatsPrefix char k n) ∧
    ∀ c ∈ firstAndLast,
      SameSelection (Client.rangeRequest k (c.call char (RangeOptions.withPrefix char {})))
        (Client.rangeRequest k ((RangeOptions.withPrefix char)^[2] {})) := by
  have hrange : ∀ m, Client.rangeRequest k ((RangeOptions.withPrefix char)^[m] {})
      = (setPrefix char)^[m] { key := k } := Options.apply_iterate _ _ _
  have hdelete : ∀ m, Client.deleteRangeRequest k ((DeleteRangeOptions.withPrefix char)^[m] {})
      = (setPrefix char)^[m] { key := k } := Options.apply_iterate _ _ _
  have hwatch : ∀ m, Client.watchSingleRequest k ((WatchOptions.withPrefix char)^[m] {})
      = (setPrefix char)^[m] { key := k } := Options.apply_iterate _ _ _
  refine ⟨?_, ?_, ?_, fun c hc => ?_⟩
  · rw [hrange n]
    exact sameSelection_iterate_iff char hn
  · rw [hdelete n]
    exact sameSelection_iterate_iff char hn
  · rw [hwatch n]
    exact sameSelection_iterate_iff char hn
  · rw [hrange 2]
    exact firstAndLast_repeat char k hc

/-- The key "a" three times, with plain `char` unsigned. -/
theorem withPrefix_repeated_a :
    SameSelection (Client.rangeRequest [0x61] ((RangeOptions.withPrefix .unsigned)^[3] {}))
      (Client.rangeRequest [0x61] (RangeOptions.withPrefix .unsigned {})) :=
  (withPrefix_repeated_iff .unsigned [0x61] (by decide)).1.mpr (by decide)

/-- The empty key twice, with plain `char` unsigned: the key "\1" is not
among those of `WithPrefix().WithFirstKey()`. -/
theorem withPrefix_twice_narrows :
    ¬ SameSelection (Client.rangeRequest [] ((RangeOptions.withPrefix .unsigned)^[2] {}))
        (Client.rangeRequest [] (RangeOptions.withPrefix .unsigned {})) ∧
    ¬ SameSelection
        (Client.rangeRequest []
          (RangeOptions.withFirstKey .unsigned (RangeOptions.withPrefix .unsigned {})))
        (Client.rangeRequest [] (RangeOptions.withPrefix .unsigned {})) := by
  constructor
  · intro hsame
    exact absurd ((hsame [1]).mpr (by decide)) (by decide)
  · intro hsame
    exact absurd ((hsame [1]).mpr (by decide)) (by decide)

end Etcdv3Client
