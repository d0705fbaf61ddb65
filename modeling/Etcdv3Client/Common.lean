import Mathlib.Data.Rat.Defs
import Etcdv3Client.Proto

/-!
# common.h and common.cc

`GetPrefixRangeEnd` compares plain `char`s, whose signedness C++ leaves to
the platform, so it takes that choice as an argument. `Options` is the
builder base class: a list of setters, applied in the order they were
pushed. The backoff that session.cc and election.cc take from another
library stands here too.
-/

namespace Etcdv3Client

/-! ## Plain char -/

/-- The signedness of plain `char`: signed on x86-64, unsigned on aarch64
Linux. -/
inductive PlainChar where
  | signed
  | unsigned
deriving DecidableEq, Repr

/-- The value of a byte read through a plain `char`. -/
def PlainChar.val : PlainChar → UInt8 → Int
  | .signed, b => b.toInt8.toInt
  | .unsigned, b => b.toNat

/-- `c < char(0xff)`, both sides promoted to `int`. -/
def PlainChar.belowFF (char : PlainChar) (c : UInt8) : Bool :=
  char.val c < char.val 0xff

@[simp] theorem belowFF_ff (char : PlainChar) : char.belowFF 0xff = false := by
  cases char <;> rfl

/-! ## GetPrefixRangeEnd -/

/-- `++s[i]`, the increment wrapping in the byte. -/
def incrAt (s : Bytes) (i : Nat) : Bytes := s.modify i (· + 1)

/-- The `for` loop from index `i`, with `n` iterations left. -/
def getPrefixRangeEndLoop (char : PlainChar) (key : Bytes) : Nat → Nat → Bytes
  | 0, _ => [0]
  | n + 1, i =>
      if char.belowFF (key.getD (key.length - i - 1) 0) then
        -- `key.substr(0, i+1)`, then `++range_end[i]`
        incrAt (key.take (i + 1)) i
      else getPrefixRangeEndLoop char key n (i + 1)

def getPrefixRangeEnd (char : PlainChar) (key : Bytes) : Bytes :=
  getPrefixRangeEndLoop char key key.length 0

/-- The trailing bytes the loop skips: those that fail `< char(0xff)`. -/
def skipped (char : PlainChar) (key : Bytes) : Bytes :=
  key.rtakeWhile (fun c => !char.belowFF c)

/-- The loop at index `i`, after `i` skipped bytes `r`. -/
theorem getPrefixRangeEndLoop_stop (char : PlainChar) (q r : Bytes) (x : UInt8)
    (hx : char.belowFF x = true) (n : Nat) :
    getPrefixRangeEndLoop char (q ++ x :: r) (n + 1) r.length
      = incrAt ((q ++ x :: r).take (r.length + 1)) r.length := by
  have hidx : (q ++ x :: r).length - r.length - 1 = q.length := by
    simp only [List.length_append, List.length_cons]
    omega
  rw [getPrefixRangeEndLoop, hidx]
  simp [hx]

/-- Skipped bytes are passed over one at a time, from the end. -/
theorem getPrefixRangeEndLoop_skip (char : PlainChar) (key : Bytes) :
    ∀ (r q t : Bytes) (n : Nat), key = q ++ r ++ t →
      (∀ c ∈ r, char.belowFF c = false) →
      getPrefixRangeEndLoop char key (r.length + n) t.length
        = getPrefixRangeEndLoop char key n (r.length + t.length) := by
  intro r
  induction r using List.reverseRecOn with
  | nil => intro q t n _ _; simp
  | append_singleton r x ih =>
    intro q t n hkey hr
    have hidx : key.length - t.length - 1 = q.length + r.length := by
      rw [hkey]
      simp only [List.length_append, List.length_cons, List.length_nil]
      omega
    have hx : key.getD (q.length + r.length) 0 = x := by
      rw [hkey]
      simp [List.getD_eq_getElem?_getD]
    rw [List.length_append, List.length_singleton,
      show r.length + 1 + n = (r.length + n) + 1 from by omega,
      getPrefixRangeEndLoop, hidx, hx, if_neg (by simp [hr x (by simp)]),
      show t.length + 1 = (x :: t).length from rfl,
      ih q (x :: t) n (by simp [hkey]) (fun c hc => hr c (by simp [hc]))]
    simp only [List.length_cons]
    congr 1
    omega

/-- A key all of whose bytes are skipped gets the one-byte end. -/
theorem getPrefixRangeEnd_all_skipped (char : PlainChar) {key : Bytes}
    (h : ∀ c ∈ key, char.belowFF c = false) : getPrefixRangeEnd char key = [0] := by
  have := getPrefixRangeEndLoop_skip char key key [] [] 0 (by simp) h
  simpa [getPrefixRangeEnd, getPrefixRangeEndLoop] using this

/-- **What the loop returns**: with `r` the skipped bytes, the first
`r.length + 1` bytes of the key, the last of them incremented. -/
theorem getPrefixRangeEnd_stop (char : PlainChar) (q r : Bytes) (x : UInt8)
    (hx : char.belowFF x = true) (hr : ∀ c ∈ r, char.belowFF c = false) :
    getPrefixRangeEnd char (q ++ x :: r)
      = incrAt ((q ++ x :: r).take (r.length + 1)) r.length := by
  have hlen : (q ++ x :: r).length = r.length + (q.length + 1) := by
    simp only [List.length_append, List.length_cons]
    omega
  have hskip := getPrefixRangeEndLoop_skip char (q ++ x :: r) r (q ++ [x]) [] (q.length + 1)
    (by simp) hr
  rw [getPrefixRangeEnd, hlen]
  simp only [List.length_nil, Nat.add_zero] at hskip
  rw [hskip, getPrefixRangeEndLoop_stop char q r x hx]

theorem incrAt_take (key : Bytes) {i : Nat} (h : i < key.length) :
    incrAt (key.take (i + 1)) i = key.take i ++ [key[i] + 1] := by
  have hi : i < (key.take (i + 1)).length := by
    rw [List.length_take]
    omega
  rw [incrAt, List.modify_eq_take_cons_drop hi]
  simp [List.take_take]

/-! ## Options -/

/-- `Options<TargetType>`: the setters pushed so far. -/
structure Options (T : Type) where
  setfuncs : List (T → T) := []

/-- One builder call. -/
def Options.push {T : Type} (o : Options T) (f : T → T) : Options T :=
  { o with setfuncs := o.setfuncs ++ [f] }

/-- `Apply`: every setter in push order. -/
def Options.apply {T : Type} (o : Options T) (target : T) : T :=
  o.setfuncs.foldl (fun t f => f t) target

@[simp] theorem Options.apply_empty {T : Type} (t : T) :
    ({} : Options T).apply t = t := rfl

@[simp] theorem Options.apply_push {T : Type} (o : Options T) (f : T → T) (t : T) :
    (o.push f).apply t = f (o.apply t) := by
  simp [Options.apply, Options.push]

/-! ## BackOffStrategy -/

/-- `cbase::time::BackOffStrategy`, which is not part of this repository:
its states, the constructor from a minimum and a maximum in seconds,
`Reset()`, `Reset(flag)`, and `Next()` with the time it returns. -/
structure BackOffStrategy where
  State : Type
  new : Int → Int → State
  reset : State → State
  resetWith : Bool → State → State
  next : State → ℚ × State

/-- The strategy that always returns its minimum. -/
def BackOffStrategy.constant : BackOffStrategy where
  State := Int
  new min _ := min
  reset b := b
  resetWith _ b := b
  next b := (b, b)

end Etcdv3Client
