import ProjectGraph.ObjectId.Digest

/-! # Digests in numbers

The kernel has an arithmetic of its own for natural numbers, and takes long for words. Here the schedule of a
block is one number whose digits in base `2 ^ 32` are the words, the latest one lowest. The digest is the same,
so what an example project comes to can be decided with ids that are made this way. -/

namespace ProjectGraph

namespace Sha1.Numbers

/-- Applies `f` to `n`. The kernel evaluates `n` first, and only once. -/
def after {α : Type} (n : Nat) (f : Nat → α) : α :=
  match n with
  | 0 => f 0
  | n + 1 => f (n + 1)

/-- The five words of the state. -/
structure State where
  a : Nat
  b : Nat
  c : Nat
  d : Nat
  e : Nat

def State.ofWords (s : Sha1.State) : State := ⟨s.a.toNat, s.b.toNat, s.c.toNat, s.d.toNat, s.e.toNat⟩

def rotate (n x : Nat) : Nat := (x <<< n) % 4294967296 ||| x >>> (32 - n)

/-- The round function and constant of round `i`. -/
def mix (i : Nat) (s : State) : Nat :=
  bif i.blt 20 then (s.b &&& s.c ||| (0xffffffff - s.b) &&& s.d) + 0x5a827999
  else bif i.blt 40 then (s.b ^^^ s.c ^^^ s.d) + 0x6ed9eba1
  else bif i.blt 60 then (s.b &&& s.c ||| s.b &&& s.d ||| s.c &&& s.d) + 0x8f1bbcdc
  else (s.b ^^^ s.c ^^^ s.d) + 0xca62c1d6

/-- The word before the `k` latest ones. -/
def wordAt (k schedule : Nat) : Nat := schedule >>> (32 * k) % 4294967296

/-- The schedule of some words, the latest one first. -/
def schedule (words : List UInt32) : Nat := words.foldr (fun w n => n <<< 32 + w.toNat) 0

/-- The word that follows on a schedule. -/
def next (schedule : Nat) : Nat :=
  rotate 1 (wordAt 2 schedule ^^^ wordAt 7 schedule ^^^ wordAt 13 schedule ^^^ wordAt 15 schedule)

/-- Appends `count` words to the schedule. -/
def extend : (count schedule : Nat) → Nat
  | 0, n => n
  | count + 1, n => after (n <<< 32 + next n) (extend count)

/-- The rounds from round `i` on, one for each of the `count` latest words. -/
def rounds (schedule : Nat) : (count i : Nat) → State → State
  | 0, _, s => s
  | count + 1, i, s =>
    after ((rotate 5 s.a + mix i s + s.e + wordAt count schedule) % 4294967296) fun a =>
      after (rotate 30 s.b) fun c => rounds schedule count (i + 1) ⟨a, s.a, c, s.c, s.d⟩

/-- Absorbs a block of words. -/
def absorb (s : State) (block : List Nat) : State :=
  let r := rounds (extend 64 (block.foldl (fun n w => n <<< 32 + w) 0)) (block.length + 64) 0 s
  ⟨(s.a + r.a) % 4294967296, (s.b + r.b) % 4294967296, (s.c + r.c) % 4294967296,
    (s.d + r.d) % 4294967296, (s.e + r.e) % 4294967296⟩

-- With the step as a parameter, the equations of the recursion do not lead the kernel to compare states.
/-- Absorbs `count` blocks, one after the other. -/
def absorbAll (absorb : State → List Nat → State) : (count : Nat) → List Nat → State → State
  | 0, _, s => s
  | count + 1, ws, s => absorbAll absorb count (ws.drop 16) (absorb s (ws.take 16))

/-- Four bytes to a word, most significant first. -/
def words : List UInt8 → List Nat
  | p :: q :: r :: s :: rest =>
    (p.toNat <<< 24 ||| q.toNat <<< 16 ||| r.toNat <<< 8 ||| s.toNat) :: words rest
  | _ => []

/-- The twenty bytes of the digest. -/
def digest (message : List UInt8) : List UInt8 :=
  let ws := words (pad message)
  let s := absorbAll absorb (ws.length / 16) ws (.ofWords initial)
  [s.a, s.b, s.c, s.d, s.e].flatMap fun w => bigEndian 4 w

/-! ## Both forms agree -/

theorem after_eq {α : Type} (n : Nat) (f : Nat → α) : after n f = f n := by
  cases n <;> rfl

theorem toNat_rotate {n : UInt32} (hpos : 0 < n.toNat) (hlt : n.toNat < 32) (x : UInt32) :
    (Sha1.rotate n x).toNat = rotate n.toNat x.toNat := by
  have hsub : (32 - n).toNat = 32 - n.toNat :=
    UInt32.toNat_sub_of_le 32 n (UInt32.le_iff_toNat_le.2 (Nat.le_of_lt hlt))
  have hmod : (32 - n.toNat) % 32 = 32 - n.toNat := Nat.mod_eq_of_lt (by omega)
  rw [Sha1.rotate, UInt32.toNat_or, UInt32.toNat_shiftLeft, UInt32.toNat_shiftRight, hsub, hmod,
    Nat.mod_eq_of_lt hlt, rotate]

theorem toNat_mix (i : Nat) (s : Sha1.State) :
    (Sha1.mix i s).toNat = mix i (.ofWords s) % 4294967296 := by
  simp only [Sha1.mix, mix, State.ofWords, cond_eq_ite, Nat.blt_eq]
  split
  · simp
  · split
    · simp
    · split <;> simp

/-- A round leads to the same numbers. -/
theorem ofWords_round (i : Nat) (w : UInt32) (s : Sha1.State) :
    State.ofWords (round i w s) =
      ⟨(rotate 5 s.a.toNat + mix i (.ofWords s) + s.e.toNat + w.toNat) % 4294967296, s.a.toNat,
        rotate 30 s.b.toNat, s.c.toNat, s.d.toNat⟩ := by
  have ha : (Sha1.rotate 5 s.a).toNat = rotate 5 s.a.toNat := toNat_rotate (by decide) (by decide) s.a
  have hb : (Sha1.rotate 30 s.b).toNat = rotate 30 s.b.toNat := toNat_rotate (by decide) (by decide) s.b
  simp only [State.ofWords, round, UInt32.toNat_add, toNat_mix, ha, hb, State.mk.injEq, and_true]
  omega

theorem wordAt_schedule (k : Nat) (ws : List UInt32) : wordAt k (schedule ws) = (ws.getD k 0).toNat := by
  induction ws generalizing k with
  | nil => simp [wordAt, schedule]
  | cons w ws ih =>
    have hcons : schedule (w :: ws) = schedule ws * 4294967296 + w.toNat := by
      rw [schedule, List.foldr_cons, Nat.shiftLeft_eq]
      rfl
    have hw : w.toNat < 4294967296 := w.toNat_lt
    cases k with
    | zero =>
      rw [hcons, wordAt, Nat.mul_zero, Nat.shiftRight_zero, List.getD_cons_zero]
      omega
    | succ k =>
      have hshift : schedule (w :: ws) >>> 32 = schedule ws := by
        rw [hcons, Nat.shiftRight_eq_div_pow]
        omega
      rw [List.getD_cons_succ, ← ih, wordAt, wordAt, Nat.mul_succ, Nat.add_comm, Nat.shiftRight_add, hshift]

/-- The word that follows on words of a schedule, the latest one first. -/
def nextWord (recent : List UInt32) : UInt32 :=
  Sha1.rotate 1 (recent.getD 2 0 ^^^ recent.getD 7 0 ^^^ recent.getD 13 0 ^^^ recent.getD 15 0)

theorem toNat_nextWord (recent : List UInt32) : (nextWord recent).toNat = next (schedule recent) := by
  rw [nextWord, toNat_rotate (by decide) (by decide), next]
  simp only [UInt32.toNat_xor, wordAt_schedule]
  rfl

/-- The schedule only looks at the sixteen latest words. -/
theorem extendSchedule_take (count : Nat) (recent : List UInt32) :
    extendSchedule count (recent.take 16) = extendSchedule count recent := by
  cases count with
  | zero => rfl
  | succ count =>
    have hgetD : ∀ k < 16, (recent.take 16).getD k 0 = recent.getD k 0 := by
      intro k hk
      rw [List.getD_eq_getElem?_getD, List.getD_eq_getElem?_getD, List.getElem?_take_of_lt hk]
    rw [extendSchedule, extendSchedule, hgetD 2 (by decide), hgetD 7 (by decide), hgetD 13 (by decide),
      hgetD 15 (by decide), List.take_take]
    rfl

theorem extendSchedule_succ (count : Nat) (recent : List UInt32) :
    extendSchedule (count + 1) recent =
      nextWord recent :: extendSchedule count (nextWord recent :: recent) := by
  rw [← extendSchedule_take count (_ :: _), List.take_succ_cons]
  rfl

theorem extend_schedule (count : Nat) (recent : List UInt32) :
    extend count (schedule recent) = schedule ((extendSchedule count recent).reverse ++ recent) := by
  induction count generalizing recent with
  | zero => rfl
  | succ count ih =>
    rw [extend, after_eq, ← toNat_nextWord, extendSchedule_succ, List.reverse_cons, List.append_assoc,
      List.singleton_append, ← ih]
    rfl

theorem length_extendSchedule (count : Nat) (recent : List UInt32) :
    (extendSchedule count recent).length = count := by
  induction count generalizing recent with
  | zero => rfl
  | succ count ih => simp [extendSchedule, ih]

/-- The rounds for words that come after others in a schedule. -/
theorem rounds_schedule (i : Nat) (ws used : List UInt32) (s : Sha1.State) :
    rounds (schedule (ws.reverse ++ used)) ws.length i (.ofWords s) = .ofWords (Sha1.rounds i ws s) := by
  induction ws generalizing i used s with
  | nil => rfl
  | cons w ws ih =>
    have hreverse : (w :: ws).reverse ++ used = ws.reverse ++ (w :: used) := by simp
    have hw : wordAt ws.length (schedule (ws.reverse ++ (w :: used))) = w.toNat := by
      rw [wordAt_schedule, List.getD_eq_getElem?_getD, List.getElem?_append_right (by simp)]
      simp
    rw [hreverse, List.length_cons, rounds, after_eq, after_eq, hw, Sha1.rounds, ← ih _ (w :: used),
      ofWords_round]
    rfl

theorem absorb_ofWords (s : Sha1.State) (block : List UInt32) :
    absorb (.ofWords s) (block.map UInt32.toNat) = .ofWords (Sha1.absorb s block) := by
  have hblock : (block.map UInt32.toNat).foldl (fun n w => n <<< 32 + w) 0 = schedule block.reverse := by
    rw [schedule, List.foldr_reverse, List.foldl_map]
  have hlength : (block.map UInt32.toNat).length + 64 = (block ++ extendSchedule 64 block.reverse).length := by
    rw [List.length_map, List.length_append, length_extendSchedule]
  have hrounds := rounds_schedule 0 (block ++ extendSchedule 64 block.reverse) [] s
  rw [List.append_nil, List.reverse_append] at hrounds
  rw [absorb, hblock, extend_schedule, hlength, hrounds]
  simp only [State.ofWords, Sha1.absorb, UInt32.toNat_add]

theorem absorbAll_ofWords (count : Nat) (ws : List UInt32) (s : Sha1.State) :
    absorbAll absorb count (ws.map UInt32.toNat) (.ofWords s) = .ofWords (Sha1.absorbAll count ws s) := by
  induction count generalizing ws s with
  | zero => rfl
  | succ count ih => rw [absorbAll, Sha1.absorbAll, ← List.map_take, ← List.map_drop, absorb_ofWords, ih]

theorem toNat_shiftLeft_byte (b : UInt8) {n : UInt32} (hn : n.toNat ≤ 24) :
    (b.toUInt32 <<< n).toNat = b.toNat <<< n.toNat := by
  have hb : b.toNat <<< n.toNat < 2 ^ 32 :=
    calc b.toNat <<< n.toNat = b.toNat * 2 ^ n.toNat := Nat.shiftLeft_eq _ _
      _ < 2 ^ 8 * 2 ^ n.toNat := Nat.mul_lt_mul_of_pos_right b.toNat_lt (Nat.two_pow_pos _)
      _ ≤ 2 ^ 8 * 2 ^ 24 := Nat.mul_le_mul_left _ (Nat.pow_le_pow_right (by decide) hn)
  rw [UInt32.toNat_shiftLeft, UInt8.toNat_toUInt32, Nat.mod_eq_of_lt (a := n.toNat) (by omega),
    Nat.mod_eq_of_lt hb]

theorem words_eq_map (bytes : List UInt8) : words bytes = (Sha1.words bytes).map UInt32.toNat := by
  fun_induction Sha1.words bytes with
  | case1 p q r s rest ih =>
    have hp : (p.toUInt32 <<< 24).toNat = p.toNat <<< 24 := toNat_shiftLeft_byte p (by decide)
    have hq : (q.toUInt32 <<< 16).toNat = q.toNat <<< 16 := toNat_shiftLeft_byte q (by decide)
    have hr : (r.toUInt32 <<< 8).toNat = r.toNat <<< 8 := toNat_shiftLeft_byte r (by decide)
    rw [words, ih, List.map_cons]
    simp only [UInt32.toNat_or, hp, hq, hr, UInt8.toNat_toUInt32]
  | case2 bytes hbytes =>
    rw [words.eq_def]
    split
    · exact absurd rfl (hbytes _ _ _ _ _)
    · rfl

theorem digest_eq (message : List UInt8) : digest message = Sha1.digest message := by
  simp only [digest, Sha1.digest, words_eq_map, List.length_map, absorbAll_ofWords]
  rfl

end Sha1.Numbers

namespace ObjectId

/-! ## Ids -/

/-- The bytes that a list of bytes is read from. -/
theorem toList_byteArray (bytes : ByteArray) : bytes.toList = bytes.data.toList := by
  have hloop : ∀ i r, ByteArray.toList.loop bytes i r = r.reverse ++ bytes.data.toList.drop i := by
    intro i r
    fun_induction ByteArray.toList.loop bytes i r with
    | case1 i r hi ih =>
      have hget : bytes.get! i = bytes.data.toList[i] := getElem!_pos bytes.data i hi
      rw [ih, List.reverse_cons, List.append_assoc, List.singleton_append, hget, List.getElem_cons_drop]
    | case2 i r hi =>
      rw [List.drop_of_length_le (Nat.le_of_not_lt hi), List.append_nil]
  exact hloop 0 []

/-- The id of a key, by numbers. -/
def digestByNumbers (key : String) : ObjectId :=
  let bytes := stamp (Sha1.Numbers.digest (x500Namespace ++ key.toByteArray.data.toList))
  ⟨String.ofList ((upperHex bytes).take 24)⟩

theorem digest_eq_digestByNumbers : digest = digestByNumbers := by
  funext key
  rw [digest, digestByNumbers, Sha1.Numbers.digest_eq, ← toList_byteArray]
  rfl

/-- The scheme of digests, for the kernel to evaluate. -/
@[reducible]
def numberScheme : IdScheme :=
  ⟨digestByNumbers, digest_eq_digestByNumbers ▸ colon_not_mem_digest⟩

theorem digestScheme_eq : digestScheme = numberScheme := by
  rw [digestScheme, numberScheme]
  simp only [digest_eq_digestByNumbers]

end ObjectId
end ProjectGraph
