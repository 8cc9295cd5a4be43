import PongPp.Util.Bytes

/-!
# SHA-1

`util::sha1`: every complete 64-byte block of the input is compressed directly, then a tail of
one or two blocks that holds the remaining bytes, `0x80`, zeros and the bit length.
-/

namespace PongPp.Util

/-- `uint32_t h[5]`. -/
structure Hash where
  h0 : UInt32
  h1 : UInt32
  h2 : UInt32
  h3 : UInt32
  h4 : UInt32
  deriving DecidableEq, Repr

def leftrotate (x n : UInt32) : UInt32 := (x <<< n) ||| (x >>> (32 - n))

/-- The block as 16 big-endian words. -/
def loadWords (block : Bytes) : List UInt32 :=
  (List.range 16).map fun i =>
    ((block.getD (i * 4) 0).toUInt32 <<< 24) ||| ((block.getD (i * 4 + 1) 0).toUInt32 <<< 16) |||
      ((block.getD (i * 4 + 2) 0).toUInt32 <<< 8) ||| (block.getD (i * 4 + 3) 0).toUInt32

/-- `w[16..79]`, appended one by one. -/
def extendWords (w : List UInt32) : List UInt32 :=
  (List.range 64).foldl (fun w k =>
    let i := 16 + k
    w ++ [leftrotate (w.getD (i - 3) 0 ^^^ w.getD (i - 8) 0 ^^^ w.getD (i - 14) 0 ^^^
      w.getD (i - 16) 0) 1]) w

/-- One round on `a b c d e`. -/
def round (w : List UInt32) (s : Hash) (i : Nat) : Hash :=
  let ⟨a, b, c, d, e⟩ := s
  let (f, k) : UInt32 × UInt32 :=
    if i < 20 then ((b &&& c) ||| (~~~b &&& d), 0x5A827999)
    else if i < 40 then (b ^^^ c ^^^ d, 0x6ED9EBA1)
    else if i < 60 then ((b &&& c) ||| (b &&& d) ||| (c &&& d), 0x8F1BBCDC)
    else (b ^^^ c ^^^ d, 0xCA62C1D6)
  ⟨leftrotate a 5 + f + e + k + w.getD i 0, a, leftrotate b 30, c, d⟩

def processBlock (block : Bytes) (h : Hash) : Hash :=
  let w := extendWords (loadWords block)
  let s := (List.range 80).foldl (round w) h
  ⟨h.h0 + s.h0, h.h1 + s.h1, h.h2 + s.h2, h.h3 + s.h3, h.h4 + s.h4⟩

/-- The complete blocks of the input, and the bytes behind them. -/
def processBlocks (data : Bytes) (h : Hash) : Hash × Bytes :=
  if 64 ≤ data.length then processBlocks (data.drop 64) (processBlock (data.take 64) h)
  else (h, data)
termination_by data.length
decreasing_by simp only [List.length_drop]; omega

def initialHash : Hash := ⟨0x67452301, 0xEFCDAB89, 0x98BADCFE, 0x10325476, 0xC3D2E1F0⟩

/-- `uint8_t tail[128]`: the remaining bytes, `0x80`, zeros, and the bit length big-endian at
the end of the first `finalSize` bytes. -/
def buildTail (rem : Bytes) (finalSize : Nat) (totalBits : UInt64) : Bytes :=
  let tail := (rem ++ List.replicate (128 - rem.length) 0).set rem.length 0x80
  (List.range 8).foldl (fun t i =>
    t.set (finalSize - 1 - i) (totalBits >>> (UInt64.ofNat (i * 8))).toUInt8) tail

/-- A word as four big-endian bytes. -/
def wordBytes (h : UInt32) : Bytes :=
  [(h >>> 24).toUInt8, (h >>> 16).toUInt8, (h >>> 8).toUInt8, h.toUInt8]

def sha1 (data : Bytes) : Bytes :=
  let (h, rem) := processBlocks data initialHash
  let blocks := if rem.length + 1 + 8 ≤ 64 then 1 else 2
  let tail := buildTail rem (blocks * 64) (UInt64.ofNat data.length * 8)
  let h := processBlock (tail.take 64) h
  let h := if blocks = 2 then processBlock (tail.drop 64) h else h
  wordBytes h.h0 ++ wordBytes h.h1 ++ wordBytes h.h2 ++ wordBytes h.h3 ++ wordBytes h.h4

end PongPp.Util
