import Z80.Proofs.Image

/-!
The image of a context as a code. Which byte strings are images, what is
wrong with the others, and what an image becomes when it is read and written
again. Only the latch byte and the two line levels can change on that way.
-/
namespace Z80

namespace Context

/-- The byte stands for a slot of the chain or for no device. -/
def IsIndex (b : Byte) : Prop :=
  b.toNat < maxDevices ∨ b = noDevice

/-- The level of a line as it is written: what is none of the three levels
counts as asserted. -/
def levelByte (b : Byte) : Byte :=
  if 2 < b.toNat then 1 else b

/-- The image with the two free bits of the latch byte clear and with both
lines at a level of their own. -/
def canonical (bytes : List Byte) : List Byte :=
  ((bytes.modify 31 (· &&& 0x3F)).modify 32 levelByte).modify 33 levelByte

theorem indexOfByte_of_isIndex {b : Byte} (h : IsIndex b) :
    ∃ index, indexOfByte b = .ok index ∧ indexToByte index = b := by
  by_cases hnone : b = noDevice
  · exact ⟨none, if_pos hnone, hnone.symm⟩
  · have hlt : b.toNat < maxDevices := h.resolve_right hnone
    refine ⟨some b, ?_, rfl⟩
    rw [indexOfByte, if_neg hnone, if_pos hlt]

theorem indexOfByte_of_not_isIndex {b : Byte} (h : ¬IsIndex b) :
    indexOfByte b = .error (.invalidDaisyIndex b maxDevices) := by
  rw [indexOfByte, if_neg fun hnone => h (.inr hnone), if_neg fun hlt => h (.inl hlt)]

theorem toByte_ofByte_level (b : Byte) : (LineState.ofByte b).toByte = levelByte b := by
  revert b
  decide +kernel

/-- The latch byte put together from its six bits. -/
theorem latches_of_bits (b : Byte) :
    BitVec.ofNat 8 ((b.getLsbD 0).toNat + 2 * (b.getLsbD 1).toNat + 4 * (b.getLsbD 2).toNat +
      8 * (b.getLsbD 3).toNat + 16 * (b.getLsbD 4).toNat + 32 * (b.getLsbD 5).toNat) =
      b &&& 0x3F := by
  revert b
  decide +kernel

theorem ofBytes_of_length_ne {bytes : List Byte} (h : bytes.length ≠ 41) :
    ofBytes bytes = .error (.wrongSize 41 bytes.length) := by
  simp only [ofBytes]
  split
  · exact absurd rfl h
  · rfl

/-- An image of the right length is read field by field. Its three checks are
all that can fail, and the fields are written back where they stood. -/
theorem ofBytes_of_length {bytes : List Byte} (h : bytes.length = 41) :
    ∃ read : Option Byte → Option Byte → Context,
      (ofBytes bytes =
        if 2 < bytes[30].toNat then .error (.invalidMode bytes[30])
        else do
          let request ← indexOfByte bytes[39]
          let service ← indexOfByte bytes[40]
          return read request service) ∧
      ∀ request service, indexToByte request = bytes[39] → indexToByte service = bytes[40] →
        (read request service).toBytes = canonical bytes := by
  match bytes, h with
  | f :: a :: c :: b :: e :: d :: l :: h ::
      ixl :: ixh :: iyl :: iyh :: spl :: sph :: pcl :: pch ::
      f' :: a' :: c' :: b' :: e' :: d' :: l' :: h' ::
      wzl :: wzh :: prel :: preh ::
      i :: r :: im :: latches ::
      irq :: nmi :: q ::
      s0 :: s1 :: s2 :: s3 ::
      request :: service :: [], _ =>
    refine ⟨_, rfl, ?_⟩
    intro _ _ hrequest hservice
    simp only [toBytes, Context.latches, Flags.toByte_ofByte, Word.low_ofBytes, Word.high_ofBytes,
      toByte_ofByte_level, latches_of_bits, hrequest, hservice]
    rfl

section

variable {bytes : List Byte} (h : bytes.length = 41)

theorem ofBytes_of_mode (hmode : 2 < bytes[30].toNat) :
    ofBytes bytes = .error (.invalidMode bytes[30]) := by
  obtain ⟨read, hread, -⟩ := ofBytes_of_length h
  rw [hread, if_pos hmode]

variable (hmode : bytes[30].toNat ≤ 2)
include hmode

theorem ofBytes_of_request (hrequest : ¬IsIndex bytes[39]) :
    ofBytes bytes = .error (.invalidDaisyIndex bytes[39] 4) := by
  obtain ⟨read, hread, -⟩ := ofBytes_of_length h
  rw [hread, if_neg (Nat.not_lt.mpr hmode), indexOfByte_of_not_isIndex hrequest]
  rfl

variable (hrequest : IsIndex bytes[39])
include hrequest

theorem ofBytes_of_service (hservice : ¬IsIndex bytes[40]) :
    ofBytes bytes = .error (.invalidDaisyIndex bytes[40] 4) := by
  obtain ⟨read, hread, -⟩ := ofBytes_of_length h
  obtain ⟨request, hok, -⟩ := indexOfByte_of_isIndex hrequest
  rw [hread, if_neg (Nat.not_lt.mpr hmode), hok, indexOfByte_of_not_isIndex hservice]
  rfl

theorem ofBytes_of_image (hservice : IsIndex bytes[40]) :
    ∃ ctx, ofBytes bytes = .ok ctx ∧ ctx.toBytes = canonical bytes := by
  obtain ⟨read, hread, hwrite⟩ := ofBytes_of_length h
  obtain ⟨request, hrequest, hrequest'⟩ := indexOfByte_of_isIndex hrequest
  obtain ⟨service, hservice, hservice'⟩ := indexOfByte_of_isIndex hservice
  refine ⟨read request service, ?_, hwrite request service hrequest' hservice'⟩
  rw [hread, if_neg (Nat.not_lt.mpr hmode), hrequest, hservice]
  rfl

end

/-- What can be read is an image. -/
theorem isImage_of_ofBytes {bytes : List Byte} {ctx : Context} (h : ofBytes bytes = .ok ctx) :
    ∃ hlength : bytes.length = 41,
      bytes[30].toNat ≤ 2 ∧ IsIndex bytes[39] ∧ IsIndex bytes[40] := by
  by_cases hlength : bytes.length = 41
  · refine ⟨hlength, ?_⟩
    by_cases hmode : 2 < bytes[30].toNat
    · rw [ofBytes_of_mode hlength hmode] at h
      cases h
    by_cases hrequest : IsIndex bytes[39]
    · by_cases hservice : IsIndex bytes[40]
      · exact ⟨Nat.not_lt.mp hmode, hrequest, hservice⟩
      · rw [ofBytes_of_service hlength (Nat.not_lt.mp hmode) hrequest hservice] at h
        cases h
    · rw [ofBytes_of_request hlength (Nat.not_lt.mp hmode) hrequest] at h
      cases h
  · rw [ofBytes_of_length_ne hlength] at h
    cases h

/-- The image is a lossless code with an exact domain. A byte string is read
if and only if it has 41 bytes, its interrupt mode exists, and its two indices
name a slot or none. Otherwise the first of these that fails is the error.
What was read is written as the same bytes in canonical form, and a context
whose mode and indices are good is read back from its own image. -/
theorem ofBytes_codec (bytes : List Byte) (ctx : Context) :
    ((∃ read, ofBytes bytes = .ok read) ↔
      ∃ hlength : bytes.length = 41,
        bytes[30].toNat ≤ 2 ∧ IsIndex bytes[39] ∧ IsIndex bytes[40]) ∧
    (bytes.length ≠ 41 → ofBytes bytes = .error (.wrongSize 41 bytes.length)) ∧
    (∀ hlength : bytes.length = 41,
      (2 < bytes[30].toNat → ofBytes bytes = .error (.invalidMode bytes[30])) ∧
      (bytes[30].toNat ≤ 2 → ¬IsIndex bytes[39] →
        ofBytes bytes = .error (.invalidDaisyIndex bytes[39] 4)) ∧
      (bytes[30].toNat ≤ 2 → IsIndex bytes[39] → ¬IsIndex bytes[40] →
        ofBytes bytes = .error (.invalidDaisyIndex bytes[40] 4))) ∧
    (∀ read, ofBytes bytes = .ok read → read.toBytes = canonical bytes) ∧
    (ctx.regs.im.toNat ≤ 2 → (∀ i ∈ ctx.daisyRequest, i.toNat < 4) →
      (∀ i ∈ ctx.daisyService, i.toNat < 4) →
      ctx.toBytes.length = 41 ∧ ofBytes ctx.toBytes = .ok ctx) := by
  refine ⟨⟨?_, ?_⟩, ofBytes_of_length_ne, ?_, ?_, ?_⟩
  · rintro ⟨read, hread⟩
    exact isImage_of_ofBytes hread
  · rintro ⟨hlength, hmode, hrequest, hservice⟩
    obtain ⟨read, hread, -⟩ := ofBytes_of_image hlength hmode hrequest hservice
    exact ⟨read, hread⟩
  · intro hlength
    exact ⟨ofBytes_of_mode hlength, ofBytes_of_request hlength, ofBytes_of_service hlength⟩
  · intro read hread
    obtain ⟨hlength, hmode, hrequest, hservice⟩ := isImage_of_ofBytes hread
    obtain ⟨same, hsame, hwrite⟩ := ofBytes_of_image hlength hmode hrequest hservice
    rw [hsame] at hread
    cases hread
    exact hwrite
  · intro hmode hrequest hservice
    exact ⟨rfl, ofBytes_toBytes ⟨hmode, hrequest, hservice⟩⟩

end Context
end Z80
