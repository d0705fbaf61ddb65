import Mathlib.Data.List.Lex
import Mathlib.Data.List.DropRight
import Mathlib.Order.Cover
import Mathlib.Order.Interval.Set.LinearOrder

/-!
# The lists that start with a given list, as an order interval

Over a linear order, the lists that start with `k` form a block of the
lexicographic order. Writing `k = p ++ a :: t`, where every element of
`t` is a top element and `a` is not, the block is `[k, p ++ [b])` for the
successor `b` of `a`; when every element of `k` is a top element, the
block is everything from `k` on. No other half-open interval from `k`
has these elements, so the upper end is determined by `k`.
-/

namespace PrefixBlock

variable {α : Type*}

/-- The lists that start with `k`. -/
def block (k : List α) : Set (List α) := {s | k <+: s}

theorem mem_block {k s : List α} : s ∈ block k ↔ k <+: s := Iff.rfl

/-- A list is cut by its last element that fails `P`. -/
theorem eq_append_cons_of_rtakeWhile {P : α → Bool} {k : List α}
    (h : ∃ c ∈ k, ¬ P c) :
    ∃ p a, k = p ++ a :: k.rtakeWhile P ∧ ¬ P a := by
  have hne : k.rdropWhile P ≠ [] := by
    intro hnil
    obtain ⟨c, hc, hPc⟩ := h
    exact hPc (List.rdropWhile_eq_nil_iff.mp hnil c hc)
  refine ⟨(k.rdropWhile P).dropLast, (k.rdropWhile P).getLast hne, ?_,
    List.rdropWhile_last_not P k hne⟩
  calc k = k.rdropWhile P ++ k.rtakeWhile P := List.rdropWhile_append_rtakeWhile.symm
    _ = ((k.rdropWhile P).dropLast ++ [(k.rdropWhile P).getLast hne]) ++ k.rtakeWhile P := by
        rw [List.dropLast_append_getLast hne]
    _ = _ := by simp

/-! ## The lexicographic order -/

variable [LinearOrder α]

theorem cons_le_cons_iff {a b : α} {k s : List α} :
    a :: k ≤ b :: s ↔ a < b ∨ a = b ∧ k ≤ s := by
  rw [← not_lt, List.cons_lt_cons_iff]
  constructor
  · intro h
    rcases lt_trichotomy a b with hab | rfl | hba
    · exact Or.inl hab
    · exact Or.inr ⟨rfl, not_lt.mp fun hs => h (Or.inr ⟨rfl, hs⟩)⟩
    · exact absurd (Or.inl hba) h
  · rintro (hab | ⟨rfl, hks⟩) (hba | ⟨hba, hsk⟩)
    · exact lt_asymm hab hba
    · exact lt_irrefl a (hba ▸ hab)
    · exact lt_irrefl a hba
    · exact not_lt.mpr hks hsk

theorem not_cons_le_nil {a : α} {k : List α} : ¬ a :: k ≤ [] :=
  not_le.mpr (List.nil_lt_cons a k)

/-- Above a list of top elements there are only its extensions. -/
theorem le_iff_prefix_of_isTop {k : List α} (hk : ∀ c ∈ k, IsTop c) :
    ∀ s : List α, k ≤ s ↔ k <+: s := by
  induction k with
  | nil =>
    intro s
    simp only [List.nil_prefix, iff_true]
    exact not_lt.mp (List.not_lt_nil s)
  | cons a k ih =>
    intro s
    cases s with
    | nil => simp [not_cons_le_nil]
    | cons b s =>
      have ha : ¬ a < b := not_lt.mpr (hk a (by simp) b)
      rw [cons_le_cons_iff, List.cons_prefix_cons,
        ih (fun c hc => hk c (by simp [hc])) s]
      exact or_iff_right ha

/-- Between `p ++ a :: t` and `p ++ [b]`, for the successor `b` of `a`,
lie the lists `p ++ a :: u` with `t ≤ u`. -/
theorem mem_Ico_iff (p t : List α) {a b : α} (hab : a ⋖ b) (s : List α) :
    s ∈ Set.Ico (p ++ a :: t) (p ++ [b]) ↔ ∃ u, s = p ++ a :: u ∧ t ≤ u := by
  rw [Set.mem_Ico]
  induction p generalizing s with
  | nil =>
    cases s with
    | nil => simp [not_cons_le_nil]
    | cons c s =>
      simp only [List.nil_append, cons_le_cons_iff, List.cons_lt_cons_iff,
        List.not_lt_nil, and_false, or_false]
      constructor
      · rintro ⟨hac | ⟨rfl, hts⟩, hcb⟩
        · exact absurd hcb (hab.2 hac)
        · exact ⟨s, rfl, hts⟩
      · rintro ⟨u, hu, htu⟩
        obtain ⟨rfl, rfl⟩ := List.cons.inj hu
        exact ⟨Or.inr ⟨rfl, htu⟩, hab.1⟩
  | cons x p ih =>
    cases s with
    | nil => simp [not_cons_le_nil]
    | cons c s =>
      simp only [List.cons_append, cons_le_cons_iff, List.cons_lt_cons_iff,
        List.cons.injEq]
      constructor
      · rintro ⟨hxc | ⟨rfl, hle⟩, hcx | ⟨hcx, hlt⟩⟩
        · exact absurd hcx (lt_asymm hxc)
        · exact absurd hxc (hcx ▸ lt_irrefl c)
        · exact absurd hcx (lt_irrefl x)
        · obtain ⟨u, rfl, htu⟩ := (ih s).mp ⟨hle, hlt⟩
          exact ⟨u, ⟨rfl, rfl⟩, htu⟩
      · rintro ⟨u, ⟨rfl, rfl⟩, htu⟩
        obtain ⟨hle, hlt⟩ := (ih (p ++ a :: u)).mpr ⟨u, rfl, htu⟩
        exact ⟨Or.inr ⟨rfl, hle⟩, Or.inr ⟨rfl, hlt⟩⟩

/-- **The block of a list as an interval**: it ends at the successor of the
last element that is not a top element, with everything after it cut. -/
theorem Ico_eq_block (p : List α) {t : List α} {a b : α} (hab : a ⋖ b)
    (ht : ∀ c ∈ t, IsTop c) :
    Set.Ico (p ++ a :: t) (p ++ [b]) = block (p ++ a :: t) := by
  ext s
  rw [mem_Ico_iff p t hab, mem_block]
  constructor
  · rintro ⟨u, rfl, htu⟩
    rw [List.prefix_append_right_inj, List.cons_prefix_cons]
    exact ⟨rfl, (le_iff_prefix_of_isTop ht u).mp htu⟩
  · rintro ⟨u, rfl⟩
    exact ⟨t ++ u, by simp, (le_iff_prefix_of_isTop ht _).mpr (List.prefix_append t u)⟩

theorem lt_upper (p t : List α) {a b : α} (hab : a ⋖ b) :
    p ++ a :: t < p ++ [b] :=
  ((mem_Ico_iff p t hab _).mpr ⟨t, rfl, le_rfl⟩).2

/-- The upper end of the block is the only one. -/
theorem Ico_eq_block_iff (p : List α) {t : List α} {a b : α} (hab : a ⋖ b)
    (ht : ∀ c ∈ t, IsTop c) (e : List α) :
    Set.Ico (p ++ a :: t) e = block (p ++ a :: t) ↔ e = p ++ [b] := by
  rw [← Ico_eq_block p hab ht, Set.Ico_eq_Ico_iff (Or.inr (lt_upper p t hab))]
  exact and_iff_right rfl

/-- A block with an upper end is not everything from `k` on. -/
theorem Ici_ne_block (p : List α) {t : List α} {a b : α} (hab : a ⋖ b)
    (ht : ∀ c ∈ t, IsTop c) :
    Set.Ici (p ++ a :: t) ≠ block (p ++ a :: t) := by
  intro h
  have hmem : p ++ [b] ∈ Set.Ici (p ++ a :: t) := (lt_upper p t hab).le
  rw [h, ← Ico_eq_block p hab ht] at hmem
  exact lt_irrefl _ hmem.2

/-! ## Bytes -/

instance instLinearOrderByte : LinearOrder UInt8 where
  le_refl := UInt8.le_refl
  le_trans _ _ _ := UInt8.le_trans
  le_antisymm _ _ := UInt8.le_antisymm
  le_total := UInt8.le_total
  lt_iff_le_not_ge a b := by grind
  toDecidableLE := inferInstance
  toDecidableEq := inferInstance
  toDecidableLT := inferInstance

theorem isTop_byte {c : UInt8} : IsTop c ↔ c = 0xff := by
  constructor
  · intro h
    have := h 0xff
    grind
  · rintro rfl b
    grind

theorem byte_covBy_succ {a : UInt8} (ha : a ≠ 0xff) : a ⋖ a + 1 :=
  ⟨by grind, fun c hac hca => by grind⟩

end PrefixBlock
