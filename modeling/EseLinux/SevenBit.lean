import EseLinux.ByteMemory
import EseLinux.DigitList

/-!
The 7-bit compression of column data: the choice of a scheme, the packing of 7-bit characters
into bytes with its 64-bit fast path, and the unpacking into a buffer of any size.  The other
compressors are libraries of their own; only what they report enters here.
-/

namespace EseLinux.SevenBit

open ByteMemory DigitList

inductive Err
  | success
  | wrnBufferTruncated
  | wrnRECCompressionScrubDetected
  | errBufferTooSmall
  | errRECCannotCompress
  | errOutOfMemory
  | other (code : Int)
  deriving DecidableEq, Repr

inductive Scheme
  | compressNone
  | compress7BitAscii
  | compress7BitUnicode
  deriving DecidableEq, Repr

/-- The identifier of a scheme in the high five bits of the header byte. -/
def Scheme.bIdentifier : Scheme → Nat
  | .compressNone => 0
  | .compress7BitAscii => 1
  | .compress7BitUnicode => 2

/-- The value of an `INT` expression, which wraps around where it leaves the range. -/
def int32 (i : Int) : Int := i.bmod (2 ^ 32)

def cbCompressed7BitAscii (cb : Nat) : Int := (int32 (cb * 7 + 7)).tdiv 8 + 1

/-- Computed as a 64-bit `size_t`, so that nothing wraps around. -/
def cbCompressed7BitUnicode (cb : Nat) : Nat := (cb / 2 * 7 + 7) / 8 + 1

def dwNot (dwMask : Nat) : Nat := 2 ^ 32 - 1 - dwMask

def dwMaskUnicode : Nat := 0x007f007f

def dwMaskAscii (fUnicodeOnly : Bool) : Nat := if fUnicodeOnly then 0x007f007f else 0x7f7f7f7f

/-- The bytes after the last full DWORD, from offset `ib` on. -/
def scanBytes : Nat → List UInt8 → Bool → Option Bool
  | _, [], fUnicodePossible => some fUnicodePossible
  | ib, b :: rest, fUnicodePossible =>
    if b.toNat > 0x7f then none
    else
      let w := b.toNat + 256 * (rest.getD 0 0).toNat
      scanBytes (ib + 1) rest
        (if fUnicodePossible && ib % 2 == 0 && decide (w > 0x7f) then false
          else fUnicodePossible)

/-- The DWORDs of the data in order, then the bytes that are left; `none` once a character is
found that no scheme can hold. -/
def scanDwords (fUnicodeOnly : Bool) : List UInt8 → Bool → Option Bool
  | b₀ :: b₁ :: b₂ :: b₃ :: rest, fUnicodePossible =>
    let dw := leNat [b₀, b₁, b₂, b₃]
    if dw &&& dwNot (dwMaskAscii fUnicodeOnly) ≠ 0 then none
    else
      scanDwords fUnicodeOnly rest
        (fUnicodePossible && dw &&& dwNot dwMaskUnicode == 0)
  | tail, fUnicodePossible => scanBytes 0 tail fUnicodePossible

def calculate7BitCompressionScheme (data : List UInt8) (fUnicodeOnly : Bool) : Scheme :=
  let fUnicodePossible := data.length % 2 == 0
  if fUnicodeOnly && !fUnicodePossible then .compressNone
  else
    match scanDwords fUnicodeOnly data fUnicodePossible with
    | none => .compressNone
    | some true =>
      if cbCompressed7BitUnicode data.length < data.length then .compress7BitUnicode
      else .compressNone
    | some false =>
      if fUnicodeOnly then .compressNone
      else if cbCompressed7BitAscii data.length < data.length then .compress7BitAscii
      else .compressNone

def nBitMask (n : Nat) : Nat := 2 ^ n - 1

def ascii7BitMaskAndShift (qw mask : Nat) : Nat :=
  (qw &&& mask) ||| ((qw >>> 1) &&& ((2 ^ 64 - 1) ^^^ mask))

def reverseEightBytes (qw : Nat) : Nat := leNat (leBytes 8 qw).reverse

/-- One round of the block reversal: the blocks under `qwHigh` go down by `shf` bits and
those under `qwLow` go up. -/
def swapBlocks (qw qwHigh qwLow shf : Nat) : Nat :=
  ((qw &&& qwHigh) >>> shf) ||| ((qw &&& qwLow) <<< shf % 2 ^ 64)

def qwMask (s₀ s₁ s₂ s₃ : Nat) : Nat :=
  nBitMask 7 <<< s₀ ||| nBitMask 7 <<< s₁ ||| nBitMask 7 <<< s₂ ||| nBitMask 7 <<< s₃

def reverseEightCompressedBytes (qw : Nat) : Nat :=
  let qw2 := swapBlocks qw (qwMask 7 21 35 49) (qwMask 0 14 28 42) 7
  let qw3 := swapBlocks qw2 (qwMask 14 21 42 49) (qwMask 0 7 28 35) 14
  swapBlocks qw3 (qwMask 28 35 42 49) (qwMask 0 7 14 21) 28

def compressQword (qw : Nat) : Nat :=
  let qw := reverseEightBytes qw
  let qw := ascii7BitMaskAndShift qw (nBitMask 7)
  let qw := ascii7BitMaskAndShift qw (nBitMask 14)
  let qw := ascii7BitMaskAndShift qw (nBitMask 21)
  let qw := ascii7BitMaskAndShift qw (nBitMask 28)
  let qw := ascii7BitMaskAndShift qw (nBitMask 35)
  let qw := ascii7BitMaskAndShift qw (nBitMask 42)
  let qw := ascii7BitMaskAndShift qw (nBitMask 49)
  reverseEightCompressedBytes qw

/-- The output buffer, the place of the next write, and the DWORD that is being filled. -/
structure Packer where
  m : Memory
  ibOutput : Nat
  dwOutput : Nat
  ibitOutputCurr : Nat

/-- The loop over the QWORDs of the input.  A QWORD is written and the place advances by 7
bytes, so that the next write goes over the last byte. -/
def packQwords : Nat → List UInt8 → Packer → List UInt8 × Packer
  | 0, data, p => (data, p)
  | n + 1, data, p =>
    let qw := compressQword (leNat (data.take 8))
    packQwords n (data.drop 8)
      { p with m := store p.m p.ibOutput (leBytes 8 qw), ibOutput := p.ibOutput + 7 }

def Packer.writeFull (p : Packer) : Packer :=
  if p.ibitOutputCurr = 32 then
    { m := store p.m p.ibOutput (leBytes 4 p.dwOutput), ibOutput := p.ibOutput + 4
      dwOutput := 0, ibitOutputCurr := 0 }
  else p

/-- The inner loop over the bits of one character; each round copies at least one of the
`cbitsRemaining` bits, which bounds the rounds. -/
def packBits : Nat → Nat → Nat → Packer → Packer
  | 0, _, _, p => p
  | rounds + 1, i, cbitsRemaining, p =>
    let cbitsToCopy := min cbitsRemaining (32 - p.ibitOutputCurr)
    let ulBitMask := 2 ^ cbitsToCopy - 1
    let p := Packer.writeFull
      { p with
        dwOutput := p.dwOutput ||| ((i &&& ulBitMask) <<< p.ibitOutputCurr)
        ibitOutputCurr := p.ibitOutputCurr + cbitsToCopy }
    let cbitsRemaining := cbitsRemaining - cbitsToCopy
    if cbitsRemaining = 0 then p else packBits rounds (i >>> cbitsToCopy) cbitsRemaining p

def packChars (chars : List Nat) (p : Packer) : Packer :=
  chars.foldl (fun p i => packBits 7 i 7 p) p

def Packer.flush (p : Packer) : Memory :=
  store p.m p.ibOutput (leBytes ((p.ibitOutputCurr + 7) / 8) p.dwOutput)

def bSignature (scheme : Scheme) (ibitOutputCurr : Nat) : UInt8 :=
  UInt8.ofNat (scheme.bIdentifier <<< 3 ||| (ibitOutputCurr - 1) % 8)

/-- The bits in the last DWORD: if nothing was written to the current DWORD then the previous
one is the last, and it is full. -/
def Packer.ibitLast (p : Packer) : Nat := if p.ibitOutputCurr = 0 then 32 else p.ibitOutputCurr

def errCompress7BitAscii (data : List UInt8) (m : Memory) (cbMax : Nat) : Err × List UInt8 :=
  if cbCompressed7BitAscii data.length > cbMax then (.errBufferTooSmall, [])
  else
    let cqwInput := data.length / 8
    let cqwOutput := (cbMax - 1 - 1) / 7
    let (rest, p) := packQwords (min cqwInput cqwOutput) data ⟨m, 1, 0, 0⟩
    let p := packChars (rest.map UInt8.toNat) p
    let ibOutput := p.ibOutput + (p.ibitOutputCurr + 7) / 8
    let m := store p.flush 0 [bSignature .compress7BitAscii p.ibitLast]
    (.success, slice m 0 ibOutput)

def words : List UInt8 → List Nat
  | b₀ :: b₁ :: rest => (b₀.toNat + 256 * b₁.toNat) :: words rest
  | _ => []

def errCompress7BitUnicode (data : List UInt8) (m : Memory) (cbMax : Nat) : Err × List UInt8 :=
  if cbCompressed7BitUnicode data.length > cbMax then (.errBufferTooSmall, [])
  else
    let p := packChars (words data) ⟨m, 1, 0, 0⟩
    let idwOutput := (p.ibOutput - 1) / 4
    let idwLast := if p.ibitOutputCurr = 0 then idwOutput - 1 else idwOutput
    let cbOutput := 1 + idwLast * 4 + (p.ibitLast + 7) / 8
    let m := store p.flush 0 [bSignature .compress7BitUnicode p.ibitLast]
    (.success, slice m 0 cbOutput)

structure Decompressed where
  err : Err
  /-- What is written to the buffer; `none` if a byte that is not of the input is read for it. -/
  data : Option (List UInt8)
  cbActual : Int
  deriving DecidableEq

def byteAt (pb : List UInt8) (ib : Nat) : Nat := (pb.getD ib 0).toNat

def bDecompressed (pb : List UInt8) (ibCompressed ibitCompressed : Nat) : Option UInt8 :=
  if ibitCompressed ≤ 1 then do
    let bCompressed ← pb[ibCompressed]?
    some (UInt8.ofNat ((bCompressed.toNat >>> ibitCompressed) &&& 0x7f))
  else do
    let bLow ← pb[ibCompressed]?
    let bHigh ← pb[ibCompressed + 1]?
    let wCompressed := bLow.toNat ||| bHigh.toNat <<< 8
    some (UInt8.ofNat ((wCompressed >>> ibitCompressed) &&& 0x7f))

/-- The place of the next character: `ibCompressed` and `ibitCompressed`. -/
def nextPlace (ib ibit : Nat) : Nat × Nat :=
  if ibit + 7 ≥ 8 then (ib + 1, (ibit + 7) % 8) else (ib, ibit + 7)

/-- The loop of the ASCII decoder, with the number of bytes still to write. -/
def unpackAscii (pb : List UInt8) : Nat → Nat × Nat → Option (List UInt8)
  | 0, _ => some []
  | n + 1, (ib, ibit) => do
    let b ← bDecompressed pb ib ibit
    let rest ← unpackAscii pb n (nextPlace ib ibit)
    some (b :: rest)

/-- The loop of the Unicode decoder: each character is followed by a zero byte, if there is
still place for it. -/
def unpackUnicode (pb : List UInt8) : Nat → Nat × Nat → Option (List UInt8)
  | 0, _ => some []
  | 1, (ib, ibit) => do
    let b ← bDecompressed pb ib ibit
    some [b]
  | n + 2, (ib, ibit) => do
    let b ← bDecompressed pb ib ibit
    let rest ← unpackUnicode pb n (nextPlace ib ibit)
    some (b :: 0 :: rest)

/-- The number of bits, from the length and the bit count in the header byte; negative for a lone
header byte. -/
def cbitTotal (pb : List UInt8) : Int :=
  let cbitFinal := (byteAt pb 0 &&& 7) + 1
  int32 (((pb.length : Int) - 2) * 8 + cbitFinal)

def cTotal (pb : List UInt8) : Int := (cbitTotal pb).tdiv 7

def errDecompress7Bit (unpack : Nat → Option (List UInt8)) (cbActual : Int) (fNoBuffer : Bool)
    (cbDataMax : Nat) : Decompressed where
  err := if cbActual > cbDataMax then .wrnBufferTruncated else .success
  data := if cbDataMax = 0 || fNoBuffer then some [] else unpack (min cbActual cbDataMax).toNat
  cbActual := cbActual

def errDecompress7BitAscii (pb : List UInt8) (fNoBuffer : Bool) (cbDataMax : Nat) :
    Decompressed :=
  errDecompress7Bit (unpackAscii pb · (1, 0)) (cTotal pb) fNoBuffer cbDataMax

def errDecompress7BitUnicode (pb : List UInt8) (fNoBuffer : Bool) (cbDataMax : Nat) :
    Decompressed :=
  errDecompress7Bit (unpackUnicode pb · (1, 0)) (int32 (cTotal pb * 2)) fNoBuffer cbDataMax

def errDecompressScrub : Decompressed := ⟨.wrnRECCompressionScrubDetected, some [], 0⟩

def bIdentifierScrub : Nat := 4

inductive Advanced
  | notTried
  | failed (err : Err)
  | compressed (bytes : List UInt8)

/-- The compressor object: its size limit for the other compressors, what they come to on a
piece of data, and what their decoders return for an identifier. -/
structure Compressor where
  cbMin : Nat
  advanced : List UInt8 → Advanced
  decompressOther : Nat → List UInt8 → Bool → Nat → Decompressed

def Compressor.tryAdvanced (c : Compressor) (data : List UInt8) : Advanced :=
  if data.length ≥ c.cbMin then c.advanced data else .notTried

/-- The scheme that the 7-bit part of `ErrCompress` takes; `compressNone` also where that part
is not reached. -/
def Compressor.scheme (c : Compressor) (data : List UInt8) (fCompress7Bit : Bool) : Scheme :=
  if fCompress7Bit then
    match c.tryAdvanced data with
    | .notTried => calculate7BitCompressionScheme data false
    | .failed err =>
      if err ≠ .success ∧ err ≠ .errRECCannotCompress ∧ err ≠ .errOutOfMemory then
        .compressNone
      else calculate7BitCompressionScheme data false
    | .compressed bytes =>
      if bytes.length ≤ cbCompressed7BitUnicode data.length then .compressNone
      else calculate7BitCompressionScheme data true
  else .compressNone

def Compressor.errCompress (c : Compressor) (data : List UInt8) (fCompress7Bit : Bool)
    (m : Memory) (cbMax : Nat) : Err × List UInt8 :=
  match c.scheme data fCompress7Bit with
  | .compress7BitAscii => errCompress7BitAscii data m cbMax
  | .compress7BitUnicode => errCompress7BitUnicode data m cbMax
  | .compressNone =>
    match c.tryAdvanced data with
    | .notTried => (.errRECCannotCompress, [])
    | .failed err =>
      if err ≠ .success ∧ err ≠ .errRECCannotCompress ∧ err ≠ .errOutOfMemory then (err, [])
      else (.errRECCannotCompress, [])
    | .compressed bytes => (.success, bytes)

def Compressor.errDecompress (c : Compressor) (pb : List UInt8) (fNoBuffer : Bool)
    (cbDataMax : Nat) : Decompressed :=
  let bIdentifier := byteAt pb 0 >>> 3
  if bIdentifier = Scheme.compress7BitAscii.bIdentifier then
    errDecompress7BitAscii pb fNoBuffer cbDataMax
  else if bIdentifier = Scheme.compress7BitUnicode.bIdentifier then
    errDecompress7BitUnicode pb fNoBuffer cbDataMax
  else if bIdentifier = bIdentifierScrub then errDecompressScrub
  else c.decompressOther bIdentifier pb fNoBuffer cbDataMax

end EseLinux.SevenBit
