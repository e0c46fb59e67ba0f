import MgCommonUtils.Lib.CString

/-!
# The frame header

The 8-byte header of the UDP protocol: the request id, the sequence number and the number of
datagrams, each as a 16-bit integer with the high byte first, and two reserved bytes. `udp.c` and
the two PHP clients have an encoder and a decoder each, which do the same on the values that fit
(`headerDecode_headerEncode`).
-/

namespace MgCommonUtils.URedis

open MgCommonUtils.Lib

/-- The two bytes of a 16-bit integer, as the encoders compute them: `x >> 8` and
`(x << 8) >> 8`, converted to a byte. -/
def word (x : ℕ) : Bytes := [UInt8.ofNat (x >>> 8), UInt8.ofNat ((x <<< 8) >>> 8)]

/-- `headerEncode` of `udp.c` and `header_encode` of the clients, or none for -1 and `false`. -/
def headerEncode (req seq ngram : ℕ) : Option Bytes :=
  if req > 65535 ∨ seq > 65535 ∨ ngram > 65535 then none
  else some (word req ++ word seq ++ word ngram ++ [0, 0])

/-- The request id, the sequence number and the number of datagrams. -/
structure Header where
  /-- The request id. -/
  req : ℕ
  /-- The sequence number. -/
  seq : ℕ
  /-- The number of datagrams. -/
  ngram : ℕ
  deriving DecidableEq, Repr

/-- `headerDecode` of `udp.c` and `header_decode` of the clients, or none for `false`, which the
clients return for fewer than 8 bytes. -/
def headerDecode : Bytes → Option Header
  | h₀ :: h₁ :: h₂ :: h₃ :: h₄ :: h₅ :: _ :: _ :: _ =>
    some {
      req := (h₀.toNat <<< 8) + h₁.toNat
      seq := (h₂.toNat <<< 8) + h₃.toNat
      ngram := (h₄.toNat <<< 8) + h₅.toNat }
  | _ => none

/-- The bytes of a 16-bit integer are read back. -/
theorem word_value {x : ℕ} (hx : x ≤ 65535) :
    ((UInt8.ofNat (x >>> 8)).toNat <<< 8) + (UInt8.ofNat ((x <<< 8) >>> 8)).toNat = x := by
  have hshift : (x <<< 8) >>> 8 = x := by
    rw [Nat.shiftLeft_eq, Nat.shiftRight_eq_div_pow]
    omega
  rw [hshift, Nat.shiftLeft_eq, Nat.shiftRight_eq_div_pow, UInt8.toNat_ofNat', UInt8.toNat_ofNat']
  omega

/-- A header is 8 bytes long. -/
theorem length_of_headerEncode {req seq ngram : ℕ} {h : Bytes}
    (hh : headerEncode req seq ngram = some h) : h.length = 8 := by
  unfold headerEncode at hh
  split at hh
  · cases hh
  · obtain rfl := Option.some.inj hh
    rfl

/-- The header of a datagram is read back, whatever its payload. -/
theorem headerDecode_headerEncode {req seq ngram : ℕ} {h : Bytes}
    (hh : headerEncode req seq ngram = some h) (payload : Bytes) :
    headerDecode (h ++ payload) = some ⟨req, seq, ngram⟩ := by
  unfold headerEncode at hh
  split at hh
  · cases hh
  · rename_i hle
    obtain rfl := Option.some.inj hh
    simp only [word, List.cons_append, List.nil_append, headerDecode]
    rw [word_value (by omega), word_value (by omega), word_value (by omega)]

/-- Values that fit have a header. -/
theorem headerEncode_of_le {req seq ngram : ℕ} (hr : req ≤ 65535) (hs : seq ≤ 65535)
    (hn : ngram ≤ 65535) :
    headerEncode req seq ngram = some (word req ++ word seq ++ word ngram ++ [0, 0]) :=
  if_neg (by omega)

end MgCommonUtils.URedis
