import EseLinux.Nls

/-!
Two users of the conversion: wide strings that are narrowed in chunks (`winapi_format.cxx`), and the
bytes of a path for `CopyFileExW` (`winapi_eseutil.cxx`) and for the other file calls
(`winapi_path.hxx`).
-/

namespace EseLinux.Nls

open List

def kChunk : Nat := 64

/-- The bytes put to the sink. -/
def emitNarrowedWide (ws : List UInt16) : List UInt8 :=
  match ws with
  | [] => []
  | u :: p =>
    let call := wideCharToMultiByte .ansi false none false ((u :: p).take kChunk) (kChunk * 2)
    match call.ret with
    | .ok (_ + 1) => call.stored ++ emitNarrowedWide ((u :: p).drop kChunk)
    | _ => []
termination_by ws.length
decreasing_by
  rw [length_drop, length_cons, kChunk]
  omega

/-- A chunk ends within a surrogate pair. -/
def CutsPair (ws : List UInt16) : Prop :=
  ∃ k hi lo, ws[kChunk * k + 63]? = some hi ∧ ws[kChunk * k + 64]? = some lo ∧ Pair hi lo

def ansiByte (cp : Nat) : UInt8 :=
  match unicodeToCp1252 cp with
  | some b => .ofNat b
  | none => 0x3f

variable {ws : List UInt16}

theorem length_decodeUtf16_le (ws : List UInt16) : (decodeUtf16 ws).length ≤ ws.length := by
  fun_induction decodeUtf16 ws <;> simp only [length_cons, length_nil] at * <;> omega

theorem wideCharToMultiByte_ansi {cb : Nat} (hcb : 0 < cb) (hfits : ws.length ≤ cb) :
    wideCharToMultiByte .ansi false none false ws cb =
      ⟨(decodeUtf16 ws).map ansiByte, .ok (decodeUtf16 ws).length⟩ := by
  have henc (cp : Nat) : encodeOne .ansi false (defaultCharOf none) cp = .ok [ansiByte cp] := by
    unfold encodeOne ansiByte
    cases unicodeToCp1252 cp <;> rfl
  have hflat : (decodeUtf16 ws).flatMap (fun cp => [ansiByte cp]) = (decodeUtf16 ws).map ansiByte :=
    flatMap_pure_eq_map ..
  have hlen := length_decodeUtf16_le ws
  have hbytes : 0 + ((decodeUtf16 ws).flatMap fun cp => [ansiByte cp]).length ≤ cb := by
    rw [hflat, length_map]
    omega
  rw [wideCharToMultiByte, if_neg Bool.false_ne_true, storeLoop_fits henc hbytes hcb, hflat,
    length_map, Nat.zero_add]

theorem length_decodeUtf16_pos (u : UInt16) (p : List UInt16) :
    0 < (decodeUtf16 (u :: p)).length := by
  cases p with
  | nil => exact Nat.one_pos
  | cons v p =>
    rw [decodeUtf16]
    split <;> exact Nat.succ_pos _

theorem emitNarrowedWide_of_ne_nil (hne : ws ≠ []) : emitNarrowedWide ws =
    (decodeUtf16 (ws.take kChunk)).map ansiByte ++ emitNarrowedWide (ws.drop kChunk) := by
  obtain ⟨u, p, rfl⟩ := exists_cons_of_ne_nil hne
  obtain ⟨n, hn⟩ := Nat.exists_eq_succ_of_ne_zero (length_decodeUtf16_pos u (p.take 63)).ne'
  rw [emitNarrowedWide, wideCharToMultiByte_ansi (by decide)
    ((length_take_le _ _).trans (by decide)), kChunk, take_succ_cons]
  simp only [hn]

theorem seam_take_drop (ws : List UInt16) (n : Nat) : Seam (ws.take (n + 1)) (ws.drop (n + 1)) ↔
    ∃ hi lo, ws[n]? = some hi ∧ ws[n + 1]? = some lo ∧ Pair hi lo := by
  simp only [Seam, getLast?_take, head?_drop, Option.mem_def]
  constructor
  · rintro ⟨hi, hlast, lo, hlo, hpair⟩
    refine ⟨hi, lo, ?_, hlo, hpair⟩
    have hlt := (List.getElem?_eq_some_iff.mp hlo).1
    simpa [getElem?_eq_getElem (show n < ws.length by omega)] using hlast
  · rintro ⟨hi, lo, hhi, hlo, hpair⟩
    exact ⟨hi, by simp [hhi], lo, hlo, hpair⟩

theorem cutsPair_iff : CutsPair ws ↔
    Seam (ws.take kChunk) (ws.drop kChunk) ∨ CutsPair (ws.drop kChunk) := by
  rw [kChunk, seam_take_drop]
  simp only [CutsPair, kChunk, getElem?_drop]
  constructor
  · rintro ⟨_ | k, hi, lo, hhi, hlo, hpair⟩
    · exact .inl ⟨hi, lo, hhi, hlo, hpair⟩
    · refine .inr ⟨k, hi, lo, ?_, ?_, hpair⟩
      · rwa [show 64 + (64 * k + 63) = 64 * (k + 1) + 63 by omega]
      · rwa [show 64 + (64 * k + 64) = 64 * (k + 1) + 64 by omega]
  · rintro (⟨hi, lo, hhi, hlo, hpair⟩ | ⟨k, hi, lo, hhi, hlo, hpair⟩)
    · exact ⟨0, hi, lo, hhi, hlo, hpair⟩
    · refine ⟨k + 1, hi, lo, ?_, ?_, hpair⟩
      · rwa [show 64 * (k + 1) + 63 = 64 + (64 * k + 63) by omega]
      · rwa [show 64 * (k + 1) + 64 = 64 + (64 * k + 64) by omega]

theorem emitNarrowedWide_spec (ws : List UInt16) :
    (emitNarrowedWide ws = (decodeUtf16 ws).map ansiByte ↔ ¬ CutsPair ws) ∧
      (decodeUtf16 ws).length ≤ (emitNarrowedWide ws).length := by
  rcases eq_or_ne ws [] with rfl | hne
  · rw [emitNarrowedWide]
    exact ⟨iff_of_true rfl fun ⟨_, _, _, h, _⟩ => by simp at h, le_rfl⟩
  · obtain ⟨ih, hle⟩ := emitNarrowedWide_spec (ws.drop kChunk)
    rw [emitNarrowedWide_of_ne_nil hne, cutsPair_iff, length_append, length_map]
    have hsplit := take_append_drop kChunk ws
    by_cases hseam : Seam (ws.take kChunk) (ws.drop kChunk)
    · have hlt := length_decodeUtf16_seam hseam
      rw [hsplit] at hlt
      refine ⟨iff_of_false (fun heq => ?_) (not_not.mpr (.inl hseam)), by omega⟩
      have hlen := congrArg length heq
      rw [length_append, length_map, length_map] at hlen
      omega
    · have happend := decodeUtf16_append hseam
      rw [hsplit] at happend
      rw [happend, map_append, append_right_inj, ih, length_append]
      exact ⟨not_congr (or_iff_right hseam).symm, by omega⟩
termination_by ws.length
decreasing_by
  have := length_pos_iff.mpr hne
  rw [length_drop, kChunk]
  omega

/-- The chunks give the bytes of the whole string just if none of them ends within a pair. -/
theorem chunked_eq_whole_iff (ws : List UInt16) {cb : Nat} (hcb : 0 < cb) (hfits : ws.length ≤ cb) :
    emitNarrowedWide ws = (wideCharToMultiByte .ansi false none false ws cb).stored ↔
      ¬ CutsPair ws := by
  rw [wideCharToMultiByte_ansi hcb hfits]
  exact (emitNarrowedWide_spec ws).1

/-- 62 letters, a pair that ends with the first chunk, and a letter. -/
theorem wholeSmile_eq_whole : emitNarrowedWide (replicate 62 0x61 ++ [0xd83d, 0xde00, 0x61]) =
    (wideCharToMultiByte .ansi false none false
      (replicate 62 0x61 ++ [0xd83d, 0xde00, 0x61]) 128).stored := by
  refine (chunked_eq_whole_iff _ (by decide) (by decide)).mpr ?_
  rintro ⟨_ | k, hi, lo, hhi, hlo, hpair⟩
  · cases hlo
    exact absurd hpair.2.1 (by decide)
  · cases hhi

/-- 63 letters and a pair. -/
def cutSmile : List UInt16 := replicate 63 0x61 ++ [0xd83d, 0xde00]

theorem cutSmile_ne_whole :
    emitNarrowedWide cutSmile ≠
      (wideCharToMultiByte .ansi false none false cutSmile 128).stored := by
  rw [wideCharToMultiByte_ansi (by decide) (by decide)]
  exact fun heq => (emitNarrowedWide_spec cutSmile).1.mp heq ⟨0, _, _, rfl, rfl, by decide⟩

/-- The bytes of a unit in the `WideToUtf8` of `CopyFileExW`. -/
def encodeUnit (w : UInt16) : List UInt8 :=
  if w.toNat < 0x80 then [.ofNat w.toNat]
  else if w.toNat < 0x800 then
    [.ofNat (0xc0 ||| w.toNat >>> 6), .ofNat (0x80 ||| w.toNat &&& 0x3f)]
  else
    [.ofNat (0xe0 ||| w.toNat >>> 12), .ofNat (0x80 ||| w.toNat >>> 6 &&& 0x3f),
      .ofNat (0x80 ||| w.toNat &&& 0x3f)]

/-- Its loop; a byte is left for the terminator. -/
def wideToUtf8From (cbOut : Nat) : Nat → List UInt16 → Option (List UInt8)
  | _, [] => some []
  | i, w :: p =>
    if cbOut ≤ i + (encodeUnit w).length then none
    else (wideToUtf8From cbOut (i + (encodeUnit w).length) p).map (encodeUnit w ++ ·)

def wideToUtf8 (src : List UInt16) (cbOut : Nat) : Option (List UInt8) :=
  if cbOut = 0 then none else wideToUtf8From cbOut 0 src

def slash (b : UInt8) : UInt8 := if b = 0x5c then 0x2f else b

/-- The bytes before the terminator; no bytes are reported as a failure. -/
def widePathToUtf8 (wsz : List UInt16) (cbBuf : Nat) : Option (List UInt8) :=
  if cbBuf = 0 then none
  else
    let call := wideCharToMultiByte .utf8 false none true wsz cbBuf
    match call.ret with
    | .ok (n + 2) => some ((call.stored.take (n + 1)).map slash)
    | _ => none

theorem encodeUnit_eq (w : UInt16) : encodeUnit w = encodeUtf8 w.toNat := by
  have hlt := w.toNat_lt
  unfold encodeUnit encodeUtf8
  rw [if_pos hlt]

theorem wideToUtf8From_eq {cbOut i : Nat} {bs : List UInt8}
    (h : wideToUtf8From cbOut i ws = some bs) : bs = ws.flatMap fun w => encodeUtf8 w.toNat := by
  induction ws generalizing i bs with
  | nil => exact (Option.some.inj h).symm
  | cons w p ih =>
    rw [wideToUtf8From] at h
    split at h
    · cases h
    · obtain ⟨rest, hrest, rfl⟩ := Option.map_eq_some_iff.mp h
      rw [flatMap_cons, ← ih hrest, encodeUnit_eq]

theorem widePathToUtf8_eq {cbBuf : Nat} {bs : List UInt8} (h : widePathToUtf8 ws cbBuf = some bs) :
    bs = ((decodeUtf16 ws).flatMap encodeUtf8).map slash := by
  have hseam : ¬ Seam ws [0] := by
    rintro ⟨hi, -, _, ⟨⟩, hpair⟩
    exact absurd hpair.2.1 (by decide)
  have hbytes : (decodeUtf16 (ws ++ [0])).flatMap encodeUtf8 =
      (decodeUtf16 ws).flatMap encodeUtf8 ++ [0] := by
    rw [decodeUtf16_append hseam, flatMap_append]
    rfl
  have henc (cp : Nat) : encodeOne .utf8 false (defaultCharOf none) cp = .ok (encodeUtf8 cp) := rfl
  unfold widePathToUtf8 at h
  split at h
  · cases h
  case isFalse hcb =>
    rw [wideCharToMultiByte, if_pos rfl] at h
    rcases le_or_gt (0 + ((decodeUtf16 (ws ++ [0])).flatMap encodeUtf8).length) cbBuf with hle | hgt
    · rw [storeLoop_fits henc hle (Nat.pos_of_ne_zero hcb), hbytes, Nat.zero_add,
        length_append, length_singleton] at h
      cases hlen : ((decodeUtf16 ws).flatMap encodeUtf8).length with
      | zero =>
        rw [hlen] at h
        cases h
      | succ n =>
        rw [hlen] at h
        rw [← Option.some.inj h, take_left' hlen]
    · dsimp only at h
      rw [storeLoop_full henc hgt (Nat.pos_of_ne_zero hcb) (Nat.zero_le _)] at h
      cases h

theorem map_slash_encodeUtf8 {cp : Nat} (h : 0x80 ≤ cp) :
    (encodeUtf8 cp).map slash = encodeUtf8 cp := by
  have hbit : ∀ b ∈ encodeUtf8 cp, b.toNat.testBit 7 = true := by
    rw [encodeUtf8, if_neg (Nat.not_lt.mpr h)]
    split_ifs <;> simp +decide [Nat.testBit_or]
  refine (map_congr_left fun b hb => if_neg ?_).trans (map_id _)
  rintro rfl
  exact Bool.noConfusion (hbit _ hb)

theorem encodeUtf8_slash_iff (w : UInt16) :
    encodeUtf8 w.toNat = (encodeUtf8 w.toNat).map slash ↔ w ≠ 0x5c := by
  rcases lt_or_ge w.toNat 0x80 with hlt | hge
  · have hbyte : UInt8.ofNat w.toNat = 0x5c ↔ w = 0x5c := by
      rw [← UInt8.toNat_inj, ← UInt16.toNat_inj, UInt8.toNat_ofNat_of_lt' (hlt.trans (by decide))]
      rfl
    rw [encodeUtf8, if_pos hlt, map_singleton, slash, Ne, ← hbyte]
    split
    case isTrue h => simp [h]
    case isFalse h => exact iff_of_true rfl h
  · refine iff_of_true (map_slash_encodeUtf8 hge).symm ?_
    rintro rfl
    exact absurd hge (by decide)

theorem Pair.encodeUtf8_ne {hi lo : UInt16} (h : Pair hi lo) (bs bs' : List UInt8) :
    encodeUtf8 hi.toNat ++ bs ≠
      (encodeUtf8 (0x10000 + (hi.toNat - 0xd800) <<< 10 + (lo.toNat - 0xdc00))).map slash ++
        bs' := by
  obtain ⟨⟨hlo, hhi⟩, -⟩ := h
  have hshift : hi.toNat >>> 12 = 13 := by omega
  rw [map_slash_encodeUtf8 (by omega)]
  intro heq
  have hbit := congrArg (fun l => l.head?.map fun b : UInt8 => b.toNat.testBit 4) heq
  rw [encodeUtf8, if_neg (by omega), if_neg (by omega), if_pos (by omega), encodeUtf8,
    if_neg (by omega), if_neg (by omega), if_neg (by omega), hshift] at hbit
  simp only [cons_append, head?_cons, Option.map_some, UInt8.toNat_ofNat',
    Nat.testBit_mod_two_pow, Nat.testBit_or] at hbit
  exact Bool.noConfusion (Option.some.inj hbit)

theorem units_eq_slashed_iff (ws : List UInt16) :
    (ws.flatMap fun w => encodeUtf8 w.toNat) = ((decodeUtf16 ws).flatMap encodeUtf8).map slash ↔
      0x5c ∉ ws ∧ ws.IsChain fun hi lo => ¬ Pair hi lo := by
  fun_induction decodeUtf16 ws with
  | case1 => simp
  | case2 u =>
    simp only [flatMap_cons, flatMap_nil, append_nil, encodeUtf8_slash_iff]
    simp [eq_comm]
  | case3 hi lo p hpair ih =>
    rw [flatMap_cons, flatMap_cons, flatMap_cons, map_append]
    refine iff_of_false (hpair.encodeUtf8_ne _ _) fun h => ?_
    exact (isChain_cons_cons.mp h.2).1 hpair
  | case4 hi lo p hpair ih =>
    have happend {as bs cs ds : List UInt8} (hlen : as.length = cs.length) :
        as ++ bs = cs ++ ds ↔ as = cs ∧ bs = ds :=
      ⟨fun h => append_inj h hlen, fun h => by rw [h.1, h.2]⟩
    rw [flatMap_cons, @flatMap_cons _ _ hi.toNat, map_append,
      happend (length_map _).symm, ih, encodeUtf8_slash_iff, isChain_cons_cons,
      @mem_cons _ hi, not_or, ne_comm]
    tauto

/-- The file calls agree on the name of a file just if it has no backslash and no surrogate pair. -/
theorem pathBytes_eq_iff {ws : List UInt16} {cbOut cbBuf : Nat} {bs bs' : List UInt8}
    (h : wideToUtf8 ws cbOut = some bs) (h' : widePathToUtf8 ws cbBuf = some bs') :
    bs = bs' ↔ 0x5c ∉ ws ∧ ws.IsChain fun hi lo => ¬ Pair hi lo := by
  rw [wideToUtf8] at h
  split at h
  · cases h
  · rw [wideToUtf8From_eq h, widePathToUtf8_eq h', units_eq_slashed_iff]

/-- The path `./é` -/
theorem accent_pathBytes_eq : ([0x2e, 0x2f, 0xc3, 0xa9] : List UInt8) = [0x2e, 0x2f, 0xc3, 0xa9] ↔
    0x5c ∉ ([0x2e, 0x2f, 0xe9] : List UInt16) ∧
      ([0x2e, 0x2f, 0xe9] : List UInt16).IsChain fun hi lo => ¬ Pair hi lo :=
  pathBytes_eq_iff (show wideToUtf8 [0x2e, 0x2f, 0xe9] 4096 = some _ from rfl)
    (show widePathToUtf8 [0x2e, 0x2f, 0xe9] 4096 = some _ from rfl)

/-- Of the path `.\a`, the copy keeps the backslash. -/
theorem backslash_pathBytes_ne : wideToUtf8 [0x2e, 0x5c, 0x61] 4096 = some [0x2e, 0x5c, 0x61] ∧
    widePathToUtf8 [0x2e, 0x5c, 0x61] 4096 = some [0x2e, 0x2f, 0x61] := ⟨rfl, rfl⟩

end EseLinux.Nls
