import Mathlib.Data.List.Induction

/-!
# Last writer wins

A sequence of calls on a record. Each call writes some of the fields: what
it writes does not depend on the calls before it, on the records of an
invariant `P` that the calls keep. Then every field of the result has the
value of the last call that writes it, or its first value where none does.
-/

namespace LastWriter

variable {S C F : Type*} {V : F → Type*}

/-- `act c` keeps `P`, and on the records of `P` sets the fields that
`writes c` says to the values it says. -/
structure Lawful (get : (f : F) → S → V f) (act : C → S → S)
    (writes : C → (f : F) → Option (V f)) (P : S → Prop) : Prop where
  keeps : ∀ c s, P s → P (act c s)
  get_act : ∀ c s f, P s → get f (act c s) = (writes c f).getD (get f s)

/-- The last call of the sequence that writes a field. -/
def lastWriter (writes : C → (f : F) → Option (V f)) (f : F) (cs : List C) : Option C :=
  cs.reverse.find? fun c => (writes c f).isSome

/-- The value it gives the field. -/
def lastWritten (writes : C → (f : F) → Option (V f)) (f : F) (cs : List C) : Option (V f) :=
  (lastWriter writes f cs).bind fun c => writes c f

variable {get : (f : F) → S → V f} {act : C → S → S} {writes : C → (f : F) → Option (V f)}
  {P : S → Prop}

theorem lastWriter_concat (f : F) (cs : List C) (c : C) :
    lastWriter writes f (cs ++ [c])
      = if (writes c f).isSome then some c else lastWriter writes f cs := by
  rw [lastWriter, List.reverse_append, List.reverse_singleton, List.singleton_append,
    List.find?_cons]
  cases (writes c f).isSome <;> rfl

theorem lastWritten_concat (f : F) (cs : List C) (c : C) :
    lastWritten writes f (cs ++ [c]) = (writes c f).or (lastWritten writes f cs) := by
  rw [lastWritten, lastWriter_concat]
  cases h : writes c f with
  | none => rfl
  | some v => simp [h]

theorem Lawful.keeps_foldl (h : Lawful get act writes P) {s : S} (hs : P s) (cs : List C) :
    P (cs.foldl (fun s c => act c s) s) := by
  induction cs generalizing s with
  | nil => exact hs
  | cons c cs ih => exact ih (h.keeps c s hs)

/-- **Last writer wins.** -/
theorem Lawful.get_foldl (h : Lawful get act writes P) {s : S} (hs : P s) (f : F) (cs : List C) :
    get f (cs.foldl (fun s c => act c s) s) = (lastWritten writes f cs).getD (get f s) := by
  induction cs using List.reverseRecOn with
  | nil => rfl
  | append_singleton cs c ih =>
    rw [List.foldl_append, List.foldl_cons, List.foldl_nil, h.get_act c _ f (h.keeps_foldl hs cs),
      ih, lastWritten_concat]
    cases writes c f <;> rfl

/-- Where the fields are all there is to a record, the last writers decide
it. -/
theorem Lawful.foldl_eq (h : Lawful get act writes P)
    (hext : ∀ s t, (∀ f, get f s = get f t) → s = t) {s : S} (hs : P s) {cs ds : List C}
    (hlast : ∀ f, lastWriter writes f cs = lastWriter writes f ds) :
    cs.foldl (fun s c => act c s) s = ds.foldl (fun s c => act c s) s := by
  apply hext
  intro f
  rw [h.get_foldl hs, h.get_foldl hs, lastWritten, lastWritten, hlast f]

/-- A part `f` of the record that some of the calls act on, as `p` tells, and
the others leave: it is the work of those alone. -/
theorem part_foldl {T D : Type*} {f : S → T} {g : D → T → T} {p : C → Option D}
    (h : ∀ c s, f (act c s) = (p c).elim (f s) fun d => g d (f s)) (cs : List C) (s : S) :
    f (cs.foldl (fun s c => act c s) s) = (cs.filterMap p).foldl (fun t d => g d t) (f s) := by
  induction cs generalizing s with
  | nil => rfl
  | cons c cs ih =>
    rw [List.foldl_cons, ih, h c s]
    cases hc : p c <;> simp [hc]

/-- A part of the record that none of the calls writes. -/
theorem kept_foldl {T : Type*} {f : S → T} (cs : List C) (h : ∀ c ∈ cs, ∀ s, f (act c s) = f s)
    (s : S) : f (cs.foldl (fun s c => act c s) s) = f s := by
  induction cs generalizing s with
  | nil => rfl
  | cons c cs ih =>
    rw [List.foldl_cons, ih fun c' hc' => h c' (List.mem_cons_of_mem c hc'),
      h c List.mem_cons_self]

/-- A part that the calls overwrite has the last value given. -/
theorem last_foldl {T : Type*} {f : S → T} {p : C → Option T}
    (h : ∀ c s, f (act c s) = (p c).elim (f s) fun t => t) (cs : List C) (s : S) :
    f (cs.foldl (fun s c => act c s) s) = (cs.filterMap p).getLastD (f s) := by
  induction cs generalizing s with
  | nil => rfl
  | cons c cs ih =>
    rw [List.foldl_cons, ih, h c s]
    cases hc : p c with
    | none => rw [List.filterMap_cons_none hc, Option.elim_none]
    | some t => rw [List.filterMap_cons_some hc, List.getLastD_cons, Option.elim_some]

/-- A flag that one call sets and the others leave. -/
theorem flag_foldl [BEq C] {f : S → Bool} {c₀ : C} (h : ∀ c s, f (act c s) = (f s || c == c₀))
    (cs : List C) (s : S) :
    f (cs.foldl (fun s c => act c s) s) = (f s || cs.any (· == c₀)) := by
  induction cs generalizing s with
  | nil => simp
  | cons c cs ih => rw [List.foldl_cons, ih, h, List.any_cons, Bool.or_assoc]

end LastWriter
