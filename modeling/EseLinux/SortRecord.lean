import EseLinux.ByteMemory
import EseLinux.KeyOrder

/-!
Sort records and sort pairs.  A record is a key and its data behind a header of two sizes; a pair is
the index of a record and the first 14 bytes of its key and data, stored backwards so that they
compare as little-endian numbers.
-/

namespace EseLinux.ExternalSort

open ByteMemory DigitList OrderCode KeyOrder Std List

structure Srec where
  key : List UInt8
  data : List UInt8
  deriving DecidableEq

def cbSrecHeader : Nat := 4

def Srec.cbRec (srec : Srec) : Nat := cbSrecHeader + srec.key.length + srec.data.length

def Srec.text (srec : Srec) : List UInt8 := srec.key ++ srec.data

def Srec.bytes (srec : Srec) : List UInt8 :=
  leBytes 2 srec.cbRec ++ (leBytes 2 srec.key.length ++ (srec.key ++ srec.data))

def cbSRECSizePsrec (m : Memory) (a : Nat) : Nat := leNat (slice m a 2)

def cbSRECKeyPsrec (m : Memory) (a : Nat) : Nat := leNat (slice m (a + 2) 2)

def psrec (m : Memory) (a : Nat) : Srec where
  key := slice m (a + cbSrecHeader) (cbSRECKeyPsrec m a)
  data := slice m (a + cbSrecHeader + cbSRECKeyPsrec m a)
    (cbSRECSizePsrec m a - cbSRECKeyPsrec m a - cbSrecHeader)

theorem Srec.bytes_length (srec : Srec) : srec.bytes.length = srec.cbRec := by
  simp only [bytes, cbRec, cbSrecHeader, length_append, leBytes_length]
  omega

variable {m : Memory} {a : Nat}

theorem slice_append_inj {n : Nat} {bs bs' : List UInt8} (h : slice m a n = bs ++ bs') :
    slice m a bs.length = bs ∧ slice m (a + bs.length) bs'.length = bs' := by
  have hlen := congrArg length h
  rw [slice_length, length_append] at hlen
  rw [hlen, ← slice_append] at h
  exact append_inj h (slice_length m a _)

variable {srec : Srec}

theorem cbSRECSizePsrec_of_slice
    (h : slice m a 2 = srec.bytes.take 2) (hsize : srec.cbRec < 65536) :
    cbSRECSizePsrec m a = srec.cbRec := by
  rw [cbSRECSizePsrec, h, Srec.bytes, take_left' (leBytes_length 2 _)]
  exact leNat_leBytes_of_lt hsize

theorem psrec_of_slice (h : slice m a srec.cbRec = srec.bytes)
    (hsize : srec.cbRec < 65536) : psrec m a = srec ∧ cbSRECSizePsrec m a = srec.cbRec := by
  obtain ⟨hcbRec, hrest⟩ := slice_append_inj h
  obtain ⟨hcbKey, hrest⟩ := slice_append_inj hrest
  obtain ⟨hkey, hdata⟩ := slice_append_inj hrest
  simp only [leBytes_length] at hcbRec hcbKey hkey hdata
  have hsize' : cbSRECSizePsrec m a = srec.cbRec := by
    rw [cbSRECSizePsrec, hcbRec]
    exact leNat_leBytes_of_lt hsize
  have hkeySize : cbSRECKeyPsrec m a = srec.key.length := by
    rw [cbSRECKeyPsrec, hcbKey]
    apply leNat_leBytes_of_lt
    unfold Srec.cbRec at hsize
    omega
  have hdataSize : srec.cbRec - srec.key.length - cbSrecHeader = srec.data.length := by
    unfold Srec.cbRec
    omega
  refine ⟨?_, hsize'⟩
  rw [psrec, hkeySize, hsize', hdataSize]
  exact congrArg₂ Srec.mk hkey hdata

def isortiCmpKey (srec srec' : Srec) : Ordering := cmpKey srec.key srec'.key

def isortiCmpKeyData (srec srec' : Srec) : Ordering :=
  (isortiCmpKey srec srec').then (cmpKey srec.data srec'.data)

theorem isortiCmpKeyData_eq :
    isortiCmpKeyData = compareLex (compareOn Srec.key) (compareOn Srec.data) := by
  funext srec srec'
  exact congrArg₂ Ordering.then (cmpKey_eq_compare _ _) (cmpKey_eq_compare _ _)

instance : TransCmp isortiCmpKeyData := by
  rw [isortiCmpKeyData_eq]
  infer_instance

instance : LawfulEqCmp isortiCmpKeyData where
  compare_self := ReflCmp.compare_self
  eq_of_compare {srec srec'} h := by
    obtain ⟨hkey, hdata⟩ := Ordering.then_eq_eq.mp h
    rw [isortiCmpKey, cmpKey_eq_compare] at hkey
    rw [cmpKey_eq_compare] at hdata
    rcases srec with ⟨key, data⟩
    exact congrArg₂ Srec.mk (LawfulEqOrd.eq_of_compare hkey) (LawfulEqOrd.eq_of_compare hdata)

def cbKeyPrefix : Nat := 14

structure Spair where
  irec : Nat
  rgbKey : List UInt8

/-- The bytes of the key, then of the data where there is room, then zeros, all backwards. -/
def rgbKeyOf (srec : Srec) : List UInt8 :=
  let rgbKey := srec.key.take cbKeyPrefix
  let rgbData := srec.data.take (cbKeyPrefix - rgbKey.length)
  (rgbKey ++ rgbData ++ replicate (cbKeyPrefix - rgbKey.length - rgbData.length) 0).reverse

def Spair.rgb (pspair : Spair) : List UInt8 := leBytes 2 pspair.irec ++ pspair.rgbKey

def Spair.high (pspair : Spair) : Nat := leNat (pspair.rgb.drop 8)

def Spair.low (pspair : Spair) : Nat := leNat (pspair.rgb.take 8) &&& 0xFFFFFFFFFFFF0000

def isortiCmp2 (text text' : List UInt8) : Ordering :=
  if cbKeyPrefix < min text.length text'.length then
    (memcmp (text.drop cbKeyPrefix) (text'.drop cbKeyPrefix)
      (min text.length text'.length - cbKeyPrefix)).then (compare text.length text'.length)
  else compare text.length text'.length

def isortiCmpPspairPspair (text : Nat → List UInt8) (pspair pspair' : Spair) : Ordering :=
  (compare pspair.high pspair'.high).then
    ((compare pspair.low pspair'.low).then (isortiCmp2 (text pspair.irec) (text pspair'.irec)))

theorem isortiCmp2_eq : isortiCmp2 =
    compareLex (compareOn fun text => min text.length (cbKeyPrefix + 1))
      (compareOn fun text => text.drop cbKeyPrefix) := by
  funext text text'
  simp only [isortiCmp2, compareLex, compareOn]
  split
  · rename_i hlong
    have hlength : compare text.length text'.length =
        compare (text.drop cbKeyPrefix).length (text'.drop cbKeyPrefix).length := by
      have hless : text.length < text'.length ↔
          text.length - cbKeyPrefix < text'.length - cbKeyPrefix := by omega
      have hmore : text'.length < text.length ↔
          text'.length - cbKeyPrefix < text.length - cbKeyPrefix := by omega
      simp only [length_drop, Nat.compare_eq_ite_lt, hless, hmore]
    have hmin : min text.length text'.length - cbKeyPrefix =
        min (text.drop cbKeyPrefix).length (text'.drop cbKeyPrefix).length := by
      rw [length_drop, length_drop]
      omega
    rw [min_eq_right (by omega : cbKeyPrefix + 1 ≤ text.length),
      min_eq_right (by omega : cbKeyPrefix + 1 ≤ text'.length), Nat.compare_eq_eq.mpr rfl,
      ← cmpKey_eq_compare, cmpKey, hlength, hmin]
    rfl
  · -- one text ends within the prefix, and the lengths decide
    rename_i hshort
    by_cases hboth : text.length ≤ cbKeyPrefix ∧ text'.length ≤ cbKeyPrefix
    · rw [min_eq_left (by omega), min_eq_left (by omega), drop_eq_nil_of_le hboth.1,
        drop_eq_nil_of_le hboth.2]
      rcases compare text.length text'.length with _ | _ | _ <;> rfl
    · rcases lt_or_ge text.length text'.length with hlt | hge
      · rw [Nat.compare_eq_lt.mpr hlt, Nat.compare_eq_lt.mpr (by omega)]
        rfl
      · rw [Nat.compare_eq_gt.mpr (by omega : text'.length < text.length),
          Nat.compare_eq_gt.mpr (by omega)]
        rfl

instance (text : Nat → List UInt8) : TransCmp (isortiCmpPspairPspair text) := by
  have heq : isortiCmpPspairPspair text = compareLex (compareOn Spair.high)
      (compareLex (compareOn Spair.low)
        (compareLex (compareOn fun pspair => min (text pspair.irec).length (cbKeyPrefix + 1))
          (compareOn fun pspair => (text pspair.irec).drop cbKeyPrefix))) := by
    funext pspair pspair'
    rw [isortiCmpPspairPspair, isortiCmp2_eq]
    rfl
  rw [heq]
  infer_instance

theorem rgbKeyOf_eq (srec : Srec) : rgbKeyOf srec = (block 0 cbKeyPrefix srec.text).reverse := by
  simp only [rgbKeyOf, block, Srec.text, take_append, length_append, length_take,
    append_assoc]
  congr 4 <;> omega

theorem rgbKeyOf_length (srec : Srec) : (rgbKeyOf srec).length = cbKeyPrefix := by
  rw [rgbKeyOf_eq, length_reverse, block_length]

theorem zipWith_and_replicate (bytes : List UInt8) :
    zipWith (· &&& ·) bytes (replicate bytes.length 255) = bytes := by
  induction bytes with
  | nil => rfl
  | cons b bytes ih =>
    rw [length_cons, replicate_succ, zipWith_cons_cons, ih]
    exact congrArg (· :: bytes) UInt8.and_neg_one

variable {pspair : Spair}

theorem Spair.low_eq (hlen : pspair.rgbKey.length = cbKeyPrefix) :
    pspair.low = 256 ^ 2 * leNat (pspair.rgbKey.take 6) := by
  have hsix : (pspair.rgbKey.take 6).length = 6 := by
    rw [length_take, hlen]
    rfl
  have hmask : 0xFFFFFFFFFFFF0000 =
      leNat ([0, 0] ++ replicate (pspair.rgbKey.take 6).length 255) := by
    rw [hsix]
    decide
  have htake : pspair.rgb.take 8 = leBytes 2 pspair.irec ++ pspair.rgbKey.take 6 := by
    rw [Spair.rgb, take_append, leBytes_length, take_of_length_le (by simp)]
  have hirec : zipWith (· &&& ·) (leBytes 2 pspair.irec) [0, 0] = [0, 0] := by
    simp [leBytes]
  rw [Spair.low, htake, hmask, leNat_and, zipWith_append (by simp), hirec,
    zipWith_and_replicate, leNat_append]
  exact zero_add _

theorem compare_prefixes {pspair' : Spair} (hlen : pspair.rgbKey.length = cbKeyPrefix)
    (hlen' : pspair'.rgbKey.length = cbKeyPrefix) :
    (compare pspair.high pspair'.high).then (compare pspair.low pspair'.low) =
      compare pspair.rgbKey.reverse pspair'.rgbKey.reverse := by
  have hhigh (p : Spair) : p.high = leNat (p.rgbKey.drop 6) := by
    rw [Spair.high, Spair.rgb, drop_append, leBytes_length,
      drop_eq_nil_of_le (by simp), nil_append]
  have hlow : compare pspair.low pspair'.low =
      compare (leNat (pspair.rgbKey.take 6)) (leNat (pspair'.rgbKey.take 6)) := by
    rw [Spair.low_eq hlen, Spair.low_eq hlen']
    simp only [Nat.compare_eq_ite_lt, Nat.mul_lt_mul_left (by decide : 0 < 256 ^ 2)]
  have hsplit (p : Spair) :
      p.rgbKey.reverse = (p.rgbKey.drop 6).reverse ++ (p.rgbKey.take 6).reverse := by
    rw [← reverse_append, take_append_drop]
  rw [hhigh, hhigh, hlow, hsplit pspair, hsplit pspair']
  symm
  apply Ordered.compare_eq
  apply (ordered_reverse (by simp [hlen, hlen'])).append
  intro _
  exact ordered_reverse (by simp [hlen, hlen'])

def Spair.Of (text : Nat → List UInt8) (pspair : Spair) (srec : Srec) : Prop :=
  text pspair.irec = srec.text ∧ pspair.rgbKey = rgbKeyOf srec

theorem isortiCmpPspairPspair_eq {text : Nat → List UInt8} {pspair' : Spair}
    {srec' : Srec} (h : pspair.Of text srec) (h' : pspair'.Of text srec') :
    isortiCmpPspairPspair text pspair pspair' = compare srec.text srec'.text := by
  have hkey : (compare pspair.high pspair'.high).then (compare pspair.low pspair'.low) =
      compare (block 0 cbKeyPrefix srec.text) (block 0 cbKeyPrefix srec'.text) := by
    rw [compare_prefixes (by rw [h.2, rgbKeyOf_length]) (by rw [h'.2, rgbKeyOf_length]), h.2, h'.2,
      rgbKeyOf_eq, rgbKeyOf_eq, reverse_reverse, reverse_reverse]
  rw [isortiCmpPspairPspair, ← Ordering.then_assoc, hkey, h.1, h'.1, isortiCmp2_eq,
    compare_eq_block compare_zero_ne_gt cbKeyPrefix srec.text srec'.text, Ordering.then_assoc]
  rfl

theorem ordered_of_prefixFree {key key' : List UInt8} (h : key <+: key' → key = key')
    (h' : key' <+: key → key' = key) : Ordered (compare key key') key key' := by
  induction key generalizing key' with
  | nil =>
    obtain rfl := h nil_prefix
    exact rfl
  | cons b key ih =>
    rcases key' with _ | ⟨b', key'⟩
    · cases h' nil_prefix
    · rw [List.compare_cons_cons]
      apply (ordered_singleton b b').append
      intro hb
      obtain rfl := LawfulEqOrd.eq_of_compare hb
      apply ih
      · intro hkey
        exact tail_eq_of_cons_eq (h (cons_prefix_cons.mpr ⟨rfl, hkey⟩))
      · intro hkey
        exact tail_eq_of_cons_eq (h' (cons_prefix_cons.mpr ⟨rfl, hkey⟩))

theorem compare_text {srec' : Srec} (h : srec.key <+: srec'.key → srec.key = srec'.key)
    (h' : srec'.key <+: srec.key → srec'.key = srec.key) :
    compare srec.text srec'.text = isortiCmpKeyData srec srec' := by
  rw [isortiCmpKeyData, isortiCmpKey, cmpKey_eq_compare, cmpKey_eq_compare]
  have hkey := ordered_of_prefixFree h h'
  rcases hcmp : compare srec.key srec'.key with _ | _ | _
  · rw [hcmp] at hkey
    exact (Before.append hkey _ _).compare_eq
  · obtain heq := LawfulEqOrd.eq_of_compare hcmp
    rw [Srec.text, Srec.text, heq, compare_append_self]
    rfl
  · rw [hcmp] at hkey
    exact OrientedCmp.gt_iff_lt.mpr (Before.append hkey _ _).compare_eq

end EseLinux.ExternalSort
