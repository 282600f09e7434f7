import Mathlib.Tactic.Lemma
import Mathlib.Tactic.Ring
import KeyQuorum.Hash.Hmac

/-!
SHA-256 on packed numbers.

The eight words of the state, and the sixteen words of the schedule that are next in turn, each
stand in one natural number, thirty-two bits a word and the first word lowest. A round is then
some operations on two numbers, which are named outright and worked out before the next round.
That makes a hash cheap to evaluate where its words one by one are not, and it is the same hash.
-/

namespace KeyQuorum.Sha256

/-! ### The schedule as a sliding window -/

/-- The word that follows sixteen words of the schedule. -/
def following (ws : List UInt32) : UInt32 :=
  let w1 := ws.getD 1 0
  let w14 := ws.getD 14 0
  (rotr w14 17 ^^^ rotr w14 19 ^^^ w14 >>> 10) + ws.getD 9 0 +
    (rotr w1 7 ^^^ rotr w1 18 ^^^ w1 >>> 3) + ws.getD 0 0

/-- The next sixteen words. -/
def slide (ws : List UInt32) : List UInt32 := ws.tail ++ [following ws]

/-- Rounds that take the first word of the window and slide it. -/
def windowRounds (s : State) : (ks ws : List UInt32) → State
  | [], _ => s
  | k :: ks, ws => windowRounds (round s k (ws.getD 0 0)) ks (slide ws)

lemma length_slide {ws : List UInt32} (h : ws.length = 16) : (slide ws).length = 16 := by
  simp [slide, h]

lemma toList_extend (w : Array UInt32) (h : 16 ≤ w.size) :
    (extend w).toList = w.toList ++ [following (w.toList.drop (w.size - 16))] := by
  have hget : ∀ j, j < 16 →
      (w.toList.drop (w.size - 16)).getD j 0 = w.getD (w.size - (16 - j)) 0 := by
    intro j hj
    have hlt : w.size - (16 - j) < w.size := by omega
    have hidx : w.size - 16 + j = w.size - (16 - j) := by omega
    rw [List.getD_eq_getElem?_getD, List.getElem?_drop, hidx, Array.getD_eq_getD_getElem?]
    simp
  simp only [extend, Array.toList_push, following, hget 0 (by omega), hget 1 (by omega),
    hget 9 (by omega), hget 14 (by omega)]

lemma size_repeat_extend (n : Nat) (w : Array UInt32) :
    (Nat.repeat extend n w).size = w.size + n := by
  induction n with
  | zero => rfl
  | succ n ih =>
    rw [Nat.repeat, extend, Array.size_push, ih]
    rfl

lemma toList_repeat_succ {b : List UInt32} (hb : b.length = 16) (n : Nat) :
    (Nat.repeat extend (n + 1) b.toArray).toList =
      b.getD 0 0 :: (Nat.repeat extend n (slide b).toArray).toList := by
  have hcons : b = b.getD 0 0 :: b.tail := by
    cases b with
    | nil => simp at hb
    | cons w ws => rfl
  induction n with
  | zero =>
    have hdrop : b.drop (b.length - 16) = b := by rw [hb]; rfl
    rw [Nat.repeat, Nat.repeat, Nat.repeat, toList_extend _ (by simp [hb]), List.size_toArray,
      hdrop]
    exact congrArg (· ++ [following b]) hcons
  | succ n ih =>
    have hsize : (Nat.repeat extend (n + 1) b.toArray).size = 16 + (n + 1) := by
      rw [size_repeat_extend, List.size_toArray, hb]
    have hsize' : (Nat.repeat extend n (slide b).toArray).size = 16 + n := by
      rw [size_repeat_extend, List.size_toArray, length_slide hb]
    have hdrop : 16 + (n + 1) - 16 = 16 + n - 16 + 1 := by omega
    rw [Nat.repeat, toList_extend _ (by omega), hsize, ih, hdrop, List.drop_succ_cons, Nat.repeat,
      toList_extend _ (by omega), hsize']
    rfl

lemma rounds_repeat {s : State} {ks b : List UInt32} (hb : b.length = 16) {n : Nat}
    (hn : ks.length ≤ n) :
    rounds s ks (Nat.repeat extend n b.toArray).toList = windowRounds s ks b := by
  induction ks generalizing s b n with
  | nil => rw [rounds, windowRounds]; rintro k ks w ws h; cases h
  | cons k ks ih =>
    -- There is a word left for the constant at hand, and sliding the window brings the next.
    cases n with
    | zero => simp at hn
    | succ n =>
      rw [toList_repeat_succ hb, rounds, windowRounds]
      exact ih (length_slide hb) (by simpa using hn)

lemma rounds_append {s : State} {ks ws : List UInt32} (h : ks.length ≤ ws.length)
    (ws' : List UInt32) : rounds s ks (ws ++ ws') = rounds s ks ws := by
  induction ks generalizing s ws with
  | nil => rw [rounds, rounds] <;> rintro k ks w ws h <;> cases h
  | cons k ks ih =>
    cases ws with
    | nil => simp at h
    | cons w ws => exact ih (by simpa using h)

lemma exists_repeat_add (n m : Nat) (w : Array UInt32) (h : 16 ≤ w.size) :
    ∃ ws, (Nat.repeat extend (n + m) w).toList = (Nat.repeat extend n w).toList ++ ws := by
  induction m with
  | zero => exact ⟨[], by simp⟩
  | succ m ih =>
    obtain ⟨ws, hws⟩ := ih
    have hsize := size_repeat_extend (n + m) w
    rw [← Nat.add_assoc, Nat.repeat, toList_extend _ (by omega), hws, List.append_assoc]
    exact ⟨_, rfl⟩

theorem rounds_schedule {s : State} {b : List UInt32} (hb : b.length = 16) :
    rounds s roundConstants (schedule b) = windowRounds s roundConstants b := by
  obtain ⟨ws, hws⟩ := exists_repeat_add 48 16 b.toArray (by simp [hb])
  have hlen : (schedule b).length = 64 := by
    rw [schedule, Array.length_toList, size_repeat_extend, List.size_toArray, hb]
  have hle : roundConstants.length ≤ (schedule b).length := Nat.le_of_eq hlen.symm
  rw [← rounds_append hle ws, schedule, ← hws]
  exact rounds_repeat hb (by decide)

/-! ### Words packed in a number -/

namespace Packed

def base : Nat := 4294967296

/-- Words in one number, the first lowest. -/
def row : List Nat → Nat
  | [] => 0
  | w :: ws => w.add (base.mul (row ws))

/-- Some of a row's words from a place on, as a row. -/
def slice (n i count : Nat) : Nat := (n.shiftRight (Nat.mul 32 i)).mod (Nat.pow base count)

/-- The word at a place of a row. -/
def word (n i : Nat) : Nat := (n.shiftRight (Nat.mul 32 i)).mod base

/-- The number is worked out before it is passed on. -/
def force {α : Type} (n : Nat) (f : Nat → α) : α :=
  match n with
  | .zero => f .zero
  | .succ m => f m.succ

def complement (w : Nat) : Nat := Nat.sub 4294967295 w

/-- A word turned to the right, with some of it left above the base. -/
def turn (w k : Nat) : Nat := (w.mul 4294967297).shiftRight k

/-- Three turns of a word laid over each other. -/
def turns (w i j k : Nat) : Nat := ((turn w i).xor (turn w j)).xor (turn w k)

def turnsShift (w i j k : Nat) : Nat := ((turn w i).xor (turn w j)).xor (w.shiftRight k)

def following (n : Nat) : Nat :=
  ((((turnsShift (word n 14) 17 19 10).add (word n 9)).add (turnsShift (word n 1) 7 18 3)).add
    (word n 0)).mod base

def slide (n : Nat) : Nat := (n.shiftRight 32).add ((following n).shiftLeft 480)

/-- The bits of `f` where `e` is set, and those of `g` elsewhere. -/
def choice (e f g : Nat) : Nat := (e.land f).xor ((complement e).land g)

def majority (a b c : Nat) : Nat := ((a.land b).xor (a.land c)).xor (b.land c)

/-- What a round adds to the word that moves over the middle. -/
def mixed (s k w : Nat) : Nat :=
  ((((word s 7).add (turns (word s 4) 6 11 25)).add
    (choice (word s 4) (word s 5) (word s 6))).add k).add w

/-- What it adds to this for the word in front. -/
def blended (s : Nat) : Nat :=
  (turns (word s 0) 2 13 22).add (majority (word s 0) (word s 1) (word s 2))

def round (s k w : Nat) : Nat :=
  ((((mixed s k w).add (blended s)).mod base).add ((slice s 0 3).shiftLeft 32)).add
    (((((word s 3).add (mixed s k w)).mod base).shiftLeft 128).add ((slice s 4 3).shiftLeft 160))

def rounds (s n : Nat) : List Nat → Nat
  | [] => s
  | k :: ks => rounds (round s k (word n 0)) (slide n) ks

/-! ### What the operations on rows are -/

lemma force_eq {α : Type} (n : Nat) (f : Nat → α) : force n f = f n := by
  cases n <;> rfl

lemma row_cons (w : Nat) (ws : List Nat) : row (w :: ws) = w + base * row ws := rfl

lemma row_append (us ws : List Nat) : row (us ++ ws) = row us + base ^ us.length * row ws := by
  induction us with
  | nil => simp [row]
  | cons u us ih =>
    rw [List.cons_append, row_cons, row_cons, ih, List.length_cons, Nat.pow_succ]
    ring

lemma row_lt {ws : List Nat} (h : ∀ w ∈ ws, w < base) : row ws < base ^ ws.length := by
  induction ws with
  | nil => simp [row]
  | cons w ws ih =>
    have hw := h w List.mem_cons_self
    have hws : row ws + 1 ≤ base ^ ws.length := ih fun u hu => h u (List.mem_cons_of_mem w hu)
    calc row (w :: ws) = w + base * row ws := row_cons w ws
      _ < base * (row ws + 1) := by rw [Nat.mul_succ]; omega
      _ ≤ base * base ^ ws.length := Nat.mul_le_mul_left base hws
      _ = base ^ (w :: ws).length := by rw [List.length_cons, Nat.pow_succ, Nat.mul_comm]

lemma shiftRight_row (us ws : List Nat) (h : ∀ u ∈ us, u < base) :
    (row (us ++ ws)).shiftRight (Nat.mul 32 us.length) = row ws := by
  have hpow : (2 : Nat) ^ (32 * us.length) = base ^ us.length := Nat.pow_mul 2 32 us.length
  have hpos : 0 < base ^ us.length := Nat.pow_pos (by decide)
  calc row (us ++ ws) >>> (32 * us.length)
      = (row us + base ^ us.length * row ws) / base ^ us.length := by
        rw [Nat.shiftRight_eq_div_pow, hpow, row_append]
    _ = row ws := by
        rw [Nat.add_mul_div_left _ _ hpos, Nat.div_eq_of_lt (row_lt h), Nat.zero_add]

lemma slice_row (us vs ws : List Nat) (hu : ∀ u ∈ us, u < base) (hv : ∀ v ∈ vs, v < base) :
    slice (row (us ++ (vs ++ ws))) us.length vs.length = row vs := by
  have hmod : (row vs + base ^ vs.length * row ws) % base ^ vs.length = row vs := by
    rw [Nat.add_mul_mod_self_left, Nat.mod_eq_of_lt (row_lt hv)]
  rw [slice, shiftRight_row _ _ hu, row_append]
  exact hmod

lemma word_row (us ws : List Nat) {w : Nat} (hu : ∀ u ∈ us, u < base) (hw : w < base) :
    word (row (us ++ w :: ws)) us.length = w := by
  have hmod : (w + base * row ws) % base = w := by
    rw [Nat.add_mul_mod_self_left, Nat.mod_eq_of_lt hw]
  rw [word, shiftRight_row _ _ hu, row_cons]
  exact hmod

/-! ### Words as numbers -/

/-- Thirty-two bit words in one number. -/
def pack (ws : List UInt32) : Nat := row (ws.map UInt32.toNat)

lemma toNat_lt_base {ws : List UInt32} : ∀ w ∈ ws.map UInt32.toNat, w < base := by
  intro w hw
  obtain ⟨x, -, rfl⟩ := List.mem_map.mp hw
  exact x.toNat_lt

lemma word_pack {ws : List UInt32} {i : Nat} (h : i < ws.length) :
    word (pack ws) i = (ws.getD i 0).toNat := by
  have hsplit : ws = ws.take i ++ ws[i] :: ws.drop (i + 1) := by simp
  have hlen : ((ws.take i).map UInt32.toNat).length = i := by simp; omega
  have hget : ws.getD i 0 = ws[i] := by simp [List.getD_eq_getElem?_getD, h]
  have hword := word_row ((ws.take i).map UInt32.toNat)
    ((ws.drop (i + 1)).map UInt32.toNat) toNat_lt_base ws[i].toNat_lt
  rw [hlen, ← List.map_cons, ← List.map_append, ← hsplit] at hword
  rw [hget]
  exact hword

lemma slice_pack {ws : List UInt32} {i count : Nat} (h : i + count ≤ ws.length) :
    slice (pack ws) i count = pack ((ws.drop i).take count) := by
  have hsplit : ws = ws.take i ++ ((ws.drop i).take count ++ (ws.drop i).drop count) := by
    rw [List.take_append_drop, List.take_append_drop]
  have hi : ((ws.take i).map UInt32.toNat).length = i := by simp; omega
  have hcount : (((ws.drop i).take count).map UInt32.toNat).length = count := by simp; omega
  have hslice := slice_row ((ws.take i).map UInt32.toNat)
    (((ws.drop i).take count).map UInt32.toNat) (((ws.drop i).drop count).map UInt32.toNat)
    toNat_lt_base toNat_lt_base
  rw [hi, hcount, ← List.map_append, ← List.map_append, ← hsplit] at hslice
  exact hslice

def packState (s : State) : Nat := pack s.words

def places : List Nat := [0, 1, 2, 3, 4, 5, 6, 7]

lemma words_eq (s : State) : s.words = places.map fun i => s.words.getD i 0 := rfl

lemma word_packState (s : State) {i : Nat} (hi : i ∈ places) :
    word (packState s) i = (s.words.getD i 0).toNat := by
  have hlt : ∀ i ∈ places, i < s.words.length := by simp [places, State.words]
  exact word_pack (hlt i hi)

lemma toNat_ofNat_of_lt {k : Nat} (hlt : k < 32) : (UInt32.ofNat k).toNat = k :=
  UInt32.toNat_ofNat_of_lt' (by rw [UInt32.size]; omega)

lemma mod_base (n : Nat) : n % base = (UInt32.ofNat n).toNat := UInt32.toNat_ofNat'.symm

lemma turn_mod_base {w k d : Nat} (hk : k + d = 32) (hw : w < base) :
    turn w k % base = w >>> k ||| (w <<< d) % base := by
  have hpow : 2 ^ k * 2 ^ d = base := by rw [← Nat.pow_add, hk]; rfl
  have hpos : 0 < 2 ^ k := Nat.two_pow_pos k
  have hlow : w / 2 ^ k < 2 ^ d := Nat.div_lt_of_lt_mul (hpow ▸ hw)
  have hshift : w * 2 ^ d = base * (w / 2 ^ k) + 2 ^ d * (w % 2 ^ k) := by
    calc w * 2 ^ d = (2 ^ k * (w / 2 ^ k) + w % 2 ^ k) * 2 ^ d := by rw [Nat.div_add_mod]
      _ = 2 ^ k * 2 ^ d * (w / 2 ^ k) + 2 ^ d * (w % 2 ^ k) := by ring
      _ = base * (w / 2 ^ k) + 2 ^ d * (w % 2 ^ k) := by rw [hpow]
  have hhigh : 2 ^ d * (w % 2 ^ k) + 2 ^ d ≤ base := by
    calc 2 ^ d * (w % 2 ^ k) + 2 ^ d = 2 ^ d * (w % 2 ^ k + 1) := by ring
      _ ≤ 2 ^ d * 2 ^ k := Nat.mul_le_mul_left _ (Nat.mod_lt w hpos)
      _ = base := by rw [Nat.mul_comm, hpow]
  have hturn : turn w k = base * (w / 2 ^ k) + (2 ^ d * (w % 2 ^ k) + w / 2 ^ k) := by
    have hprod : w * (base + 1) = w + 2 ^ k * (w * 2 ^ d) := by rw [← hpow]; ring
    calc turn w k = w * (base + 1) / 2 ^ k := Nat.shiftRight_eq_div_pow _ _
      _ = w / 2 ^ k + w * 2 ^ d := by rw [hprod, Nat.add_mul_div_left _ _ hpos]
      _ = base * (w / 2 ^ k) + (2 ^ d * (w % 2 ^ k) + w / 2 ^ k) := by rw [hshift]; ring
  -- Behind the word shifted to the right stand the bits that were shifted out of it.
  have hmod : w <<< d % base = 2 ^ d * (w % 2 ^ k) := by
    rw [Nat.shiftLeft_eq, hshift, Nat.mul_add_mod_self_left, Nat.mod_eq_of_lt]
    have := Nat.two_pow_pos d
    omega
  rw [hturn, Nat.mul_add_mod_self_left, hmod, Nat.shiftRight_eq_div_pow, Nat.or_comm,
    ← Nat.two_pow_add_eq_or_of_lt hlow, Nat.mod_eq_of_lt]
  omega

lemma ofNat_turn (x : UInt32) {k : Nat} (hpos : 0 < k) (hlt : k < 32) :
    UInt32.ofNat (turn x.toNat k) = rotr x (UInt32.ofNat k) := by
  have hk := toNat_ofNat_of_lt hlt
  have hle : UInt32.ofNat k ≤ 32 :=
    UInt32.le_iff_toNat_le.mpr (by rw [hk]; exact Nat.le_of_lt hlt)
  have hsub : (32 - UInt32.ofNat k).toNat = 32 - k := by
    rw [UInt32.toNat_sub_of_le _ _ hle, hk]
    rfl
  have hturn := turn_mod_base (Nat.add_sub_cancel' (Nat.le_of_lt hlt)) x.toNat_lt
  apply UInt32.toNat_inj.mp
  rw [UInt32.toNat_ofNat', rotr, UInt32.toNat_or, UInt32.toNat_shiftRight, UInt32.toNat_shiftLeft,
    hsub, hk, Nat.mod_eq_of_lt hlt, Nat.mod_eq_of_lt (Nat.sub_lt (by decide) hpos)]
  exact hturn

lemma ofNat_complement (x : UInt32) : UInt32.ofNat (complement x.toNat) = ~~~x := by
  have hx := x.toNat_lt
  apply UInt32.toNat_inj.mp
  rw [UInt32.toNat_ofNat', UInt32.toNat_not, UInt32.size, complement, Nat.sub_eq]
  omega

lemma ofNat_shiftRight (x : UInt32) {k : Nat} (hlt : k < 32) :
    UInt32.ofNat (x.toNat >>> k) = x >>> UInt32.ofNat k := by
  have hx := x.toNat_lt
  have hle : x.toNat >>> k ≤ x.toNat := Nat.shiftRight_le _ _
  apply UInt32.toNat_inj.mp
  rw [UInt32.toNat_ofNat', UInt32.toNat_shiftRight, toNat_ofNat_of_lt hlt,
    Nat.mod_eq_of_lt hlt, Nat.mod_eq_of_lt (by omega)]

/-! ### Rounds on rows -/

lemma following_pack {ws : List UInt32} (h : ws.length = 16) :
    following (pack ws) = (Sha256.following ws).toNat := by
  have hword : ∀ i < 16, word (pack ws) i = (ws.getD i 0).toNat :=
    fun i hi => word_pack (h ▸ hi)
  rw [following, Sha256.following, hword 0 (by decide), hword 1 (by decide), hword 9 (by decide),
    hword 14 (by decide)]
  generalize ws.getD 0 0 = w0, ws.getD 1 0 = w1, ws.getD 9 0 = w9, ws.getD 14 0 = w14
  change ((turn w14.toNat 17 ^^^ turn w14.toNat 19 ^^^ w14.toNat >>> 10) + w9.toNat +
    (turn w1.toNat 7 ^^^ turn w1.toNat 18 ^^^ w1.toNat >>> 3) + w0.toNat) % 2 ^ 32 = _
  rw [← UInt32.toNat_ofNat']
  simp (disch := decide) only [UInt32.ofNat_add, UInt32.ofNat_xor, ofNat_turn, ofNat_shiftRight,
    UInt32.ofNat_toNat]
  rfl

lemma shiftLeft_eq (n i : Nat) : n <<< (32 * i) = base ^ i * n := by
  have hpow : (2 : Nat) ^ (32 * i) = base ^ i := Nat.pow_mul 2 32 i
  rw [Nat.shiftLeft_eq, hpow, Nat.mul_comm]

lemma slide_eq (n : Nat) : slide n = n >>> 32 + following n <<< 480 := rfl

lemma slide_pack {ws : List UInt32} (h : ws.length = 16) :
    slide (pack ws) = pack (Sha256.slide ws) := by
  cases ws with
  | nil => cases h
  | cons w ws =>
    have hlen : (ws.map UInt32.toNat).length = 15 := by simpa using h
    have hshift : pack (w :: ws) >>> 32 = row (ws.map UInt32.toNat) :=
      shiftRight_row ([w].map UInt32.toNat) _ toNat_lt_base
    rw [slide_eq, hshift, following_pack h, shiftLeft_eq _ 15, Sha256.slide, List.tail_cons, pack,
      List.map_append, row_append, hlen]
    rfl

lemma round_eq (s k w : Nat) :
    round s k w =
      let s1 := turn (word s 4) 6 ^^^ turn (word s 4) 11 ^^^ turn (word s 4) 25
      let ch := (word s 4 &&& word s 5) ^^^ (complement (word s 4) &&& word s 6)
      let t1 := word s 7 + s1 + ch + k + w
      let s0 := turn (word s 0) 2 ^^^ turn (word s 0) 13 ^^^ turn (word s 0) 22
      let maj := (word s 0 &&& word s 1) ^^^ (word s 0 &&& word s 2) ^^^ (word s 1 &&& word s 2)
      (t1 + (s0 + maj)) % base + slice s 0 3 <<< 32 +
        (((word s 3 + t1) % base) <<< 128 + slice s 4 3 <<< 160) :=
  rfl

lemma pack_eight (x a b c y e f g : UInt32) :
    pack [x, a, b, c, y, e, f, g] = x.toNat + pack [a, b, c] <<< 32 +
      (y.toNat <<< 128 + pack [e, f, g] <<< 160) := by
  have hrow : ∀ v : UInt32, ∀ vs, pack (v :: vs) = v.toNat + base * pack vs := fun _ _ => rfl
  have hnil : pack [] = 0 := rfl
  rw [shiftLeft_eq _ 1, shiftLeft_eq _ 4, shiftLeft_eq _ 5]
  simp only [hrow, hnil]
  ring

lemma round_packState (s : State) (k w : UInt32) :
    round (packState s) k.toNat w.toNat = packState (Sha256.round s k w) := by
  have hlow : slice (packState s) 0 3 = pack [s.a, s.b, s.c] := slice_pack (by simp [State.words])
  have hhigh : slice (packState s) 4 3 = pack [s.e, s.f, s.g] := slice_pack (by simp [State.words])
  have hword : ∀ i ∈ places, word (packState s) i = (s.words.getD i 0).toNat :=
    fun i hi => word_packState s hi
  simp only [places, List.forall_mem_cons, State.words, List.getD_cons_zero, List.getD_cons_succ]
    at hword
  obtain ⟨h0, h1, h2, h3, h4, h5, h6, h7, -⟩ := hword
  simp (disch := decide) only [round_eq, hlow, hhigh, h0, h1, h2, h3, h4, h5, h6, h7, mod_base,
    UInt32.ofNat_add, UInt32.ofNat_xor, UInt32.ofNat_and, ofNat_turn, ofNat_complement,
    UInt32.ofNat_toNat]
  exact (pack_eight ..).symm

-- From here on they are rewritten with; unfolded, a long message nests too deep for the kernel.
attribute [irreducible] slide round

lemma rounds_cons (s n k : Nat) (ks : List Nat) :
    rounds s n (k :: ks) = rounds (round s k (word n 0)) (slide n) ks := rfl

lemma rounds_packState {ks ws : List UInt32} (h : ws.length = 16) (s : State) :
    rounds (packState s) (pack ws) (ks.map UInt32.toNat) = packState (windowRounds s ks ws) := by
  induction ks generalizing s ws with
  | nil => rfl
  | cons k ks ih =>
    rw [List.map_cons, rounds_cons, word_pack (h ▸ (by decide : 0 < 16)), round_packState,
      slide_pack h]
    exact ih (length_slide h) _

/-! ### Blocks -/

def add (s t : Nat) : Nat :=
  row (places.map fun i => ((word s i).add (word t i)).mod base)

def compress (s n : Nat) : Nat :=
  force (rounds s n (roundConstants.map UInt32.toNat)) (add s)

def absorb : (blocks : Nat) → Nat → List Nat → Nat
  | 0, s, _ => s
  | n + 1, s, ws =>
    force (row (ws.take 16)) fun block => force (compress s block) fun s => absorb n s (ws.drop 16)

def wordsOf : Bytes → List Nat
  | a :: b :: c :: d :: rest =>
    (((a.toNat.shiftLeft 24).lor (b.toNat.shiftLeft 16)).lor (c.toNat.shiftLeft 8)).lor d.toNat ::
      wordsOf rest
  | _ => []

def wordBytes (w : Nat) : Bytes :=
  [UInt8.ofNat (w.shiftRight 24), UInt8.ofNat (w.shiftRight 16), UInt8.ofNat (w.shiftRight 8),
    UInt8.ofNat w]

lemma add_packState (s t : State) : add (packState s) (packState t) = packState (s.add t) := by
  have hget : ∀ i ∈ places,
      (s.add t).words.getD i 0 = s.words.getD i 0 + t.words.getD i 0 := by
    simp [places, State.add, State.words]
  have hsum : (places.map fun i =>
      ((word (packState s) i).add (word (packState t) i)).mod base) =
      ((s.add t).words).map UInt32.toNat := by
    rw [words_eq, List.map_map]
    refine List.map_congr_left fun i hi => ?_
    have hsum := UInt32.ofNat_add (s.words.getD i 0).toNat (t.words.getD i 0).toNat
    rw [UInt32.ofNat_toNat, UInt32.ofNat_toNat] at hsum
    rw [word_packState s hi, word_packState t hi, Function.comp_apply, hget i hi, ← hsum]
    exact mod_base _
  rw [add, hsum]
  rfl

lemma compress_packState {ws : List UInt32} (h : ws.length = 16) (s : State) :
    compress (packState s) (pack ws) = packState (Sha256.compress s ws) := by
  rw [compress, force_eq, rounds_packState h, add_packState, Sha256.compress, rounds_schedule h]

lemma absorb_packState {n : Nat} {ws : List UInt32} (h : 16 * n ≤ ws.length) (s : State) :
    absorb n (packState s) (ws.map UInt32.toNat) = packState (Sha256.absorb n s ws) := by
  induction n generalizing s ws with
  | zero => rfl
  | succ n ih =>
    have hlen : (ws.take 16).length = 16 := by rw [List.length_take]; omega
    have hblock : row ((ws.map UInt32.toNat).take 16) = pack (ws.take 16) := by
      rw [pack, List.map_take]
    rw [absorb, force_eq, force_eq, hblock, compress_packState hlen, ← List.map_drop,
      ih (by rw [List.length_drop]; omega), Sha256.absorb]

lemma wordsOf_eq (bs : Bytes) : wordsOf bs = (Sha256.wordsOf bs).map UInt32.toNat := by
  have hshift : ∀ (x : UInt8) (k : UInt32), k.toNat ≤ 24 →
      (x.toUInt32 <<< k).toNat = x.toNat <<< k.toNat := by
    intro x k hk
    have hx := x.toNat_lt
    have hpow : 2 ^ k.toNat ≤ 2 ^ 24 := Nat.pow_le_pow_right (by decide) hk
    have hlt : x.toNat * 2 ^ k.toNat < 2 ^ 32 :=
      calc x.toNat * 2 ^ k.toNat ≤ 255 * 2 ^ 24 := Nat.mul_le_mul (by omega) hpow
        _ < 2 ^ 32 := by decide
    rw [UInt32.toNat_shiftLeft, UInt8.toNat_toUInt32, Nat.mod_eq_of_lt (by omega : k.toNat < 32),
      Nat.shiftLeft_eq, Nat.mod_eq_of_lt hlt]
  induction bs using wordsOf.induct with
  | case1 a b c d rest ih =>
    rw [wordsOf, Sha256.wordsOf, List.map_cons, ih, UInt32.toNat_or, UInt32.toNat_or,
      UInt32.toNat_or, hshift a 24 (by decide), hshift b 16 (by decide), hshift c 8 (by decide),
      UInt8.toNat_toUInt32]
    rfl
  | case2 bs h =>
    rw [wordsOf, Sha256.wordsOf]
    · rfl
    · exact h
    · exact h

lemma wordBytes_toNat (w : UInt32) : wordBytes w.toNat = Sha256.wordBytes w := by
  have hbyte : ∀ k < 32, UInt8.ofNat (w.toNat >>> k) = (w >>> UInt32.ofNat k).toUInt8 := by
    intro k hk
    apply UInt8.toNat_inj.mp
    rw [UInt8.toNat_ofNat', UInt32.toNat_toUInt8, UInt32.toNat_shiftRight,
      toNat_ofNat_of_lt hk, Nat.mod_eq_of_lt hk]
  have h24 := hbyte 24 (by decide)
  have h16 := hbyte 16 (by decide)
  have h8 := hbyte 8 (by decide)
  change [UInt8.ofNat (w.toNat >>> 24), UInt8.ofNat (w.toNat >>> 16), UInt8.ofNat (w.toNat >>> 8),
    UInt8.ofNat w.toNat] = _
  rw [h24, h16, h8]
  rfl

lemma length_wordsOf (bs : Bytes) : (Sha256.wordsOf bs).length = bs.length / 4 := by
  induction bs using wordsOf.induct with
  | case1 a b c d rest ih =>
    rw [Sha256.wordsOf, List.length_cons, ih]
    simp only [List.length_cons]
    omega
  | case2 bs h =>
    match bs with
    | [] => rfl
    | [_] | [_, _] | [_, _, _] => simp [Sha256.wordsOf]
    | a :: b :: c :: d :: rest => exact absurd rfl (h a b c d rest)

def digest (message : Bytes) : Bytes :=
  force (absorb ((message.length + 72) / 64) (packState initial)
    (wordsOf (message ++ padding message.length)))
    fun s => places.flatMap fun i => wordBytes (word s i)

/-- **The packed hash is the hash.** -/
theorem hashBytes_eq (message : Bytes) : hashBytes message = digest message := by
  have hlen : 16 * ((message.length + 72) / 64) ≤
      (Sha256.wordsOf (message ++ padding message.length)).length := by
    rw [length_wordsOf, List.length_append, padding, List.length_append,
      List.length_cons, List.length_replicate, Bytes.length_bigEndian]
    omega
  rw [digest, force_eq, wordsOf_eq, absorb_packState hlen, hashBytes, words_eq, List.flatMap_map]
  refine congrArg List.flatten (List.map_congr_left fun i hi => ?_)
  rw [word_packState _ hi, wordBytes_toNat]

example : hashBytes [0x61, 0x62, 0x63] =
    [0xba, 0x78, 0x16, 0xbf, 0x8f, 0x01, 0xcf, 0xea, 0x41, 0x41, 0x40, 0xde, 0x5d,
      0xae, 0x22, 0x23, 0xb0, 0x03, 0x61, 0xa3, 0x96, 0x17, 0x7a, 0x9c, 0xb4, 0x10,
      0xff, 0x61, 0xf2, 0x00, 0x15, 0xad] := by
  rw [hashBytes_eq]
  decide +kernel

/-! ### Tagged and keyed hashes -/

lemma length_digest (message : Bytes) : (digest message).length = 32 := by
  rw [← hashBytes_eq, length_hashBytes]

def hash (message : Bytes) : Block 32 := ⟨digest message, length_digest message⟩

lemma hash_eq : Sha256.hash = hash := funext fun m => Block.ext_bytes (hashBytes_eq m)

def tagged (tag : String) (message : Bytes) : Block 32 :=
  let t := (hash tag.toUTF8.data.toList).bytes
  hash (t ++ t ++ message)

lemma tagged_eq : Sha256.tagged = tagged := by
  funext tag message
  rw [tagged, ← hash_eq]
  rfl

def code (key message : Bytes) : Block 32 :=
  let short := if key.length ≤ 64 then key else (hash key).bytes
  let k := short ++ List.replicate (64 - short.length) 0
  hash (k.map (· ^^^ 0x5c) ++ (hash (k.map (· ^^^ 0x36) ++ message)).bytes)

lemma code_eq : Hmac.code = code := by
  funext key message
  rw [code, ← hash_eq]
  rfl

def stretch (key info : Bytes) : (count index : Nat) → (last : Bytes) → Bytes
  | 0, _, _ => []
  | count + 1, index, last =>
    let block := (code key (last ++ info ++ [UInt8.ofNat index])).bytes
    block ++ stretch key info count (index + 1) block

def expand (key info : Bytes) (length : Nat) : Bytes :=
  (stretch key info ((length + 31) / 32) 1 []).take length

lemma expand_eq : Hmac.expand = expand := by
  have hrounds : ∀ key info count index last,
      Hmac.expandRounds key info count index last = stretch key info count index last := by
    intro key info count
    induction count with
    | zero => exact fun _ _ => rfl
    | succ n ih => exact fun index last => by rw [Hmac.expandRounds, stretch, code_eq, ih]
  funext key info length
  rw [Hmac.expand, hrounds, expand]

lemma length_expand (key info : Bytes) (length : Nat) :
    (expand key info length).length = length := by
  rw [← expand_eq, Hmac.length_expand]

end Packed

end KeyQuorum.Sha256
