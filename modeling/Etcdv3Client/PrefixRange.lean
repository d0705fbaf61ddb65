import Etcdv3Client.KV
import Etcdv3Client.Watch

/-!
# Which prefixes the prefix options select exactly

`GetPrefixRangeEnd` cuts the key at the number of bytes it skipped where
the upper end of the prefix block is the key cut *before* them. The two
cuts agree only when the key's length is one more than the skipped bytes
and the trailing `0xff` bytes together; a key of `0xff` bytes and the empty
key are the two other cases in which the selection is exact.
-/

namespace Etcdv3Client

open PrefixBlock

/-! ## The range that the code computes -/

/-- The trailing `0xff` bytes of a key. -/
def trailingFF (key : Bytes) : Bytes := key.rtakeWhile (· = 0xff)

/-- The prefix is exactly selected: the request on `k` selects a non-empty
string if and only if `k` is a prefix of it. -/
def PrefixExact {T : Type} [KeyRange T] (req : T) (k : Bytes) : Prop :=
  ∀ s : Bytes, s ≠ [] → (Requests req s ↔ k <+: s)

/-- The condition on the key: it is empty, or all its bytes are `0xff`, or
the bytes the loop skips and the trailing `0xff` bytes are together one
less than its length. -/
def ExactKey (char : PlainChar) (k : Bytes) : Prop :=
  k = [] ∨ (∀ c ∈ k, c = 0xff) ∨
    (skipped char k).length + (trailingFF k).length + 1 = k.length

theorem isTop_of_mem_trailingFF {k : Bytes} : ∀ c ∈ trailingFF k, IsTop c := by
  intro c hc
  exact isTop_byte.mpr (by simpa using List.mem_rtakeWhile_imp hc)

/-- A key with a byte other than `0xff`, cut at the last such byte. -/
theorem eq_append_trailingFF {k : Bytes} (h : ∃ c ∈ k, c ≠ 0xff) :
    ∃ p a, k = p ++ a :: trailingFF k ∧ a ≠ 0xff := by
  obtain ⟨p, a, hk, ha⟩ :=
    eq_append_cons_of_rtakeWhile (P := fun c : UInt8 => decide (c = 0xff)) (k := k)
      (by simpa using h)
  exact ⟨p, a, hk, by simpa using ha⟩

/-- For a key whose last byte other than `0xff` is `a`, after `p`, the
range up to `e` is the prefix block only for the successor of `p ++ [a]`. -/
theorem selects_exact_iff {p t e : Bytes} {a : UInt8} (ha : a ≠ 0xff)
    (ht : ∀ c ∈ t, IsTop c) (he : e ≠ []) :
    (∀ s, Selects (p ++ a :: t) e s ↔ p ++ a :: t <+: s) ↔ e = p ++ [a + 1] := by
  have hcov : a ⋖ a + 1 := byte_covBy_succ ha
  by_cases h0 : e = [0]
  · -- the end reads as "no end", which is above the whole block
    have hne : (p ++ [a + 1] : Bytes) ≠ [0] := by
      intro h
      have hlen := congrArg List.length h
      have hp : p = [] := by
        apply List.eq_nil_of_length_eq_zero
        simpa using hlen
      subst hp
      simp only [List.nil_append, List.cons.injEq, and_true] at h
      grind
    refine iff_of_false (fun h => Ici_ne_block p hcov ht ?_) (by rw [h0]; exact fun h => hne h.symm)
    ext s
    rw [Set.mem_Ici, mem_block, ← h s, h0, selects_from_key]
  · rw [← Ico_eq_block_iff p hcov ht e]
    constructor
    · intro h
      ext s
      rw [mem_block, ← h s, selects_interval he h0]
    · intro h s
      rw [selects_interval he h0, h, mem_block]

/-- Where some byte passes the loop's test, the computed end is the upper
end of the block exactly when the two cuts agree. -/
theorem rangeEnd_eq_iff (char : PlainChar) {k p : Bytes} {a : UInt8}
    (hk : k = p ++ a :: trailingFF k) (hs : ∃ c ∈ k, char.belowFF c = true) :
    getPrefixRangeEnd char k = p ++ [a + 1]
      ↔ (skipped char k).length + (trailingFF k).length + 1 = k.length := by
  obtain ⟨q, x, hq, hx⟩ :=
    eq_append_cons_of_rtakeWhile (P := fun c => !char.belowFF c) (k := k)
      (by simpa using hs)
  have hlen : k.length = q.length + 1 + (skipped char k).length := by
    have := congrArg List.length hq
    simp only [List.length_append, List.length_cons] at this
    rw [skipped]
    omega
  have hlt : (skipped char k).length < k.length := by omega
  have hend : getPrefixRangeEnd char k
      = k.take (skipped char k).length ++ [k[(skipped char k).length] + 1] := by
    have hstop := getPrefixRangeEnd_stop char q (skipped char k) x (by simpa using hx)
      (fun c hc => by simpa using List.mem_rtakeWhile_imp hc)
    rw [show q ++ x :: skipped char k = k from hq.symm] at hstop
    rw [hstop, incrAt_take k hlt]
  have hplen : k.length = p.length + 1 + (trailingFF k).length := by
    have := congrArg List.length hk
    simp only [List.length_append, List.length_cons] at this
    omega
  rw [hend]
  constructor
  · intro h
    have := congrArg List.length h
    simp only [List.length_append, List.length_take, List.length_singleton] at this
    omega
  · intro h
    have hi : (skipped char k).length = p.length := by omega
    have hp : p.length < k.length := by omega
    have htake : k.take p.length = p := by
      rw [hk]
      simp
    have hget : k[p.length] = a := by
      simp only [List.getElem_of_eq hk]
      simp
    simp only [hi, htake, hget]

/-- **The exact keys**: the range from a non-empty key to the computed end
is the prefix block if and only if the key meets `ExactKey`. -/
theorem selects_prefix_iff (char : PlainChar) {k : Bytes} (hne : k ≠ []) :
    (∀ s, Selects k (getPrefixRangeEnd char k) s ↔ k <+: s) ↔ ExactKey char k := by
  by_cases hall : ∀ c ∈ k, c = 0xff
  · -- all bytes are skipped and there is nothing above the block
    have hend : getPrefixRangeEnd char k = [0] :=
      getPrefixRangeEnd_all_skipped char (fun c hc => by rw [hall c hc]; simp)
    refine iff_of_true (fun s => ?_) (Or.inr (Or.inl hall))
    rw [hend, selects_from_key,
      le_iff_prefix_of_isTop (fun c hc => isTop_byte.mpr (hall c hc))]
  · have hex : ∃ c ∈ k, c ≠ 0xff := by simpa using hall
    obtain ⟨p, a, hk, ha⟩ := eq_append_trailingFF hex
    have hcond : ExactKey char k
        ↔ (skipped char k).length + (trailingFF k).length + 1 = k.length := by
      simp only [ExactKey, hne, hall, false_or]
    by_cases hs : ∃ c ∈ k, char.belowFF c = true
    · have hend : getPrefixRangeEnd char k ≠ [] := by
        obtain ⟨q, x, hq, hx⟩ :=
          eq_append_cons_of_rtakeWhile (P := fun c => !char.belowFF c) (k := k)
            (by simpa using hs)
        rw [hq, getPrefixRangeEnd_stop char _ _ _ (by simpa using hx)
          (fun c hc => by simpa using List.mem_rtakeWhile_imp hc)]
        simp [incrAt]
      rw [hcond, ← rangeEnd_eq_iff char hk hs]
      have := selects_exact_iff (p := p) (e := getPrefixRangeEnd char k) ha
        (isTop_of_mem_trailingFF (k := k)) hend
      rwa [← hk] at this
    · -- nothing passes the test: the range has no end, and every byte is skipped
      have hskip : ∀ c ∈ k, char.belowFF c = false := by simpa using hs
      have hlen : (skipped char k).length = k.length := by
        rw [skipped, List.rtakeWhile_eq_self_iff.mpr (by simpa using hskip)]
      have hexact := selects_exact_iff (p := p) (e := [0]) ha
        (isTop_of_mem_trailingFF (k := k)) (by simp)
      rw [← hk] at hexact
      rw [getPrefixRangeEnd_all_skipped char hskip, hexact, hcond]
      refine iff_of_false (fun h => ?_) (by omega)
      have hp : p = [] := by
        have := congrArg List.length h
        simp only [List.length_append, List.length_singleton] at this
        exact List.eq_nil_of_length_eq_zero (by omega)
      subst hp
      simp only [List.nil_append, List.cons.injEq, and_true] at h
      grind

/-! ## The three requests -/

/-- The setter of `WithPrefix` on a request with key `k`. -/
theorem prefixExact_setPrefix_iff {T : Type} [KeyRange T] (char : PlainChar) {req : T}
    {k : Bytes} (hreq : KeyRange.key req = k) :
    PrefixExact (setPrefix char req) k ↔ ExactKey char k := by
  by_cases hne : k = []
  · -- the empty key is replaced by the least non-empty string
    refine iff_of_true (fun s hs => ?_) (Or.inl hne)
    rw [requests_setPrefix_nil char (hreq.trans hne), selects_from_key, hne]
    refine iff_of_true ?_ (List.nil_prefix)
    cases s with
    | nil => exact absurd rfl hs
    | cons b s =>
      rw [cons_le_cons_iff]
      by_cases hb : b = 0
      · exact Or.inr ⟨hb.symm, not_lt.mp (List.not_lt_nil s)⟩
      · exact Or.inl (by grind)
  · rw [← selects_prefix_iff char hne]
    constructor
    · intro h s
      by_cases hs : s = []
      · subst hs
        refine iff_of_false ?_ (by simpa using hne)
        intro hsel
        -- no non-empty key is at or below the empty string
        cases k with
        | nil => exact hne rfl
        | cons a k =>
          have hle : a :: k ≤ ([] : Bytes) := by
            unfold Selects at hsel
            split at hsel
            · exact absurd hsel.symm hne
            · split at hsel
              · exact hsel
              · exact hsel.1
          exact not_cons_le_nil hle
      · rw [← h s hs, requests_setPrefix char (hreq ▸ hne), hreq]
    · intro h s _
      rw [requests_setPrefix char (hreq ▸ hne), hreq, h s]

/-- **Prefix selection.** For every key and either signedness of plain
`char`, the requests of the three `WithPrefix` builders select exactly the
strings with the key as a prefix if and only if the key meets `ExactKey`. -/
theorem withPrefix_exact_iff (char : PlainChar) (k : Bytes) :
    (PrefixExact (Client.rangeRequest k (RangeOptions.withPrefix char {})) k
      ↔ ExactKey char k) ∧
    (PrefixExact (Client.deleteRangeRequest k (DeleteRangeOptions.withPrefix char {})) k
      ↔ ExactKey char k) ∧
    (PrefixExact (Client.watchSingleRequest k (WatchOptions.withPrefix char {})) k
      ↔ ExactKey char k) := by
  refine ⟨?_, ?_, ?_⟩
  · simp only [Client.rangeRequest, RangeOptions.withPrefix, Options.apply_push,
      Options.apply_empty]
    exact prefixExact_setPrefix_iff char rfl
  · simp only [Client.deleteRangeRequest, DeleteRangeOptions.withPrefix, Options.apply_push,
      Options.apply_empty]
    exact prefixExact_setPrefix_iff char rfl
  · simp only [Client.watchSingleRequest, WatchOptions.withPrefix, Options.apply_push,
      Options.apply_empty]
    exact prefixExact_setPrefix_iff char rfl

/-- The key `"ab"`: with `char` signed no byte passes the test, the range
has no end and `"b"` is selected; with `char` unsigned the key is cut after
its first byte and `"ac"` is selected. -/
theorem withPrefix_overruns :
    ¬ PrefixExact (Client.deleteRangeRequest [0x61, 0x62]
        (DeleteRangeOptions.withPrefix .signed {})) [0x61, 0x62] ∧
    ¬ PrefixExact (Client.deleteRangeRequest [0x61, 0x62]
        (DeleteRangeOptions.withPrefix .unsigned {})) [0x61, 0x62] := by
  constructor
  · intro h
    have hpre := (h [0x62] (by decide)).mp (by decide)
    exact absurd hpre (by decide)
  · intro h
    have hpre := (h [0x61, 0x63] (by decide)).mp (by decide)
    exact absurd hpre (by decide)

end Etcdv3Client
