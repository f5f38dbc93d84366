import KeepTalkingSfu.ByteTransport

/-!
# Text as bytes

The UTF-8 bytes of a string and the lossy way back, which puts one replacement
character where a maximal broken sequence stood. Text that was encoded comes
back unchanged.
-/
namespace KeepTalkingSfu.Utf8Text
open ByteTransport

def utf8 (s : String) : Bytes := s.toList.flatMap String.utf8EncodeChar

/-- Whether `c` may follow the lead byte `b` of a sequence of three or four. -/
def secondFits (b c : UInt8) : Bool :=
  if b = 0xE0 then 0xA0 ≤ c && c ≤ 0xBF
  else if b = 0xED then 0x80 ≤ c && c ≤ 0x9F
  else if 0xE1 ≤ b && b ≤ 0xEF then 0x80 ≤ c && c ≤ 0xBF
  else if b = 0xF0 then 0x90 ≤ c && c ≤ 0xBF
  else if 0xF1 ≤ b && b ≤ 0xF3 then 0x80 ≤ c && c ≤ 0xBF
  else b = 0xF4 && 0x80 ≤ c && c ≤ 0x8F

/-- Bytes of the broken sequence at the head: its lead byte and every
continuation byte that still fitted. -/
def brokenLen : Bytes → ℕ
  | b::c::d::_ =>
      if secondFits b c then
        if 0xF0 ≤ b && 0x80 ≤ d && d ≤ 0xBF then 3 else 2
      else 1
  | [b,c] => if secondFits b c then 2 else 1
  | _ => 1

theorem brokenLen_pos (bs : Bytes) : 0 < brokenLen bs := by
  fun_cases brokenLen bs <;> decide

/-- The characters of a byte string, broken sequences replaced. -/
def lossyChars (bs : Bytes) : List Char :=
  match bs with
  | [] => []
  | b::rest =>
      match (b::rest).toByteArray.utf8DecodeChar? 0 with
      | some c => c::lossyChars ((b::rest).drop c.utf8Size)
      | none => '\uFFFD'::lossyChars ((b::rest).drop (brokenLen (b::rest)))
termination_by bs.length
decreasing_by
  · have := c.utf8Size_pos
    simp only [List.length_drop,List.length_cons]
    omega
  · have := brokenLen_pos (b::rest)
    simp only [List.length_drop,List.length_cons]
    omega

def fromUtf8Lossy (bs : Bytes) : String := String.ofList (lossyChars bs)

theorem lossyChars_encode (c : Char) (bs : Bytes) :
    lossyChars (String.utf8EncodeChar c++bs) = c::lossyChars bs := by
  obtain ⟨b,rest,he⟩ := List.exists_cons_of_ne_nil (String.utf8EncodeChar_ne_nil (c := c))
  have hd : (b::(rest++bs)).toByteArray.utf8DecodeChar? 0 = some c := by
    rw [← List.cons_append,← he,List.toByteArray_append]
    exact ByteArray.utf8DecodeChar?_utf8EncodeChar_append
  have hdrop : (b::(rest++bs)).drop c.utf8Size = bs := by
    rw [← List.cons_append,← he,← String.length_utf8EncodeChar c]
    exact List.drop_left
  rw [he,List.cons_append,lossyChars,hd]
  simp only [hdrop]

/-- Encoded text survives the lossy decoder. -/
theorem fromUtf8Lossy_utf8 (s : String) : fromUtf8Lossy (utf8 s) = s := by
  have h : ∀ cs : List Char, lossyChars (cs.flatMap String.utf8EncodeChar) = cs := by
    intro cs
    induction cs with
    | nil => simp [lossyChars]
    | cons c cs ih => rw [List.flatMap_cons,lossyChars_encode,ih]
  rw [fromUtf8Lossy,utf8,h,String.ofList_toList]

/-! ### A byte below 128

It is no part of a longer sequence, so text is decoded up to it and from it on. -/

theorem brokenLen_append {b : UInt8} (rest : Bytes) {x : UInt8} (hx : x < 128) (bs : Bytes) :
    brokenLen (b::rest++x::bs) = brokenLen (b::rest) ∧ brokenLen (b::rest) ≤ (b::rest).length := by
  have hsecond : ∀ b, secondFits b x = false := by
    intro b
    have hlow : ¬128 ≤ x := UInt8.not_le.mpr hx
    have h1 : ¬160 ≤ x := fun h => hlow (UInt8.le_trans (by decide) h)
    have h2 : ¬144 ≤ x := fun h => hlow (UInt8.le_trans (by decide) h)
    simp only [secondFits]
    simp [hlow,h1,h2]
  have hthird : (128 ≤ x) = False := by
    simpa using hx
  match rest with
  | [] =>
      cases bs <;> simp [brokenLen,hsecond]
  | [c] =>
      simp [brokenLen,hthird]
      split <;> simp
  | c::d::rest =>
      simp only [List.cons_append,brokenLen]
      refine ⟨trivial,?_⟩
      split_ifs <;> simp

/-- A character decoded at the head of a text lies before the first such byte. -/
theorem decode_before {a : Bytes} (ha : a ≠ []) {x : UInt8} (hx : x < 128) {bs : Bytes} {c : Char}
    (h : (a++x::bs).toByteArray.utf8DecodeChar? 0 = some c) :
    ∃ a', a = String.utf8EncodeChar c++a' := by
  obtain ⟨l,hl⟩ := ByteArray.exists_of_utf8DecodeChar?_eq_some h
  have hbytes : l = l.data.toList.toByteArray := by
    apply ByteArray.ext
    simp
  rw [hbytes,← List.toByteArray_append,List.toByteArray_inj] at hl
  rcases List.append_eq_append_iff.mp hl with ⟨m,hm,hrest⟩ | ⟨m,hm,-⟩
  · cases m with
    | nil => exact ⟨[],by simpa using hm.symm⟩
    | cons y m =>
        -- The byte would be one inside the character's sequence, and those are all above.
        obtain ⟨rfl,-⟩ := List.cons.inj hrest
        have hi : a.length < (String.utf8EncodeChar c).length := by simp [hm]
        have hget : (String.utf8EncodeChar c)[a.length] = x := by simp [hm]
        have hlow : ∀ n : Fin 128, UInt8.ofNat n &&& 128 = 0 := by decide
        have hfirst : x.IsUTF8FirstByte := .inl (by simpa using hlow ⟨x.toNat,hx⟩)
        have hzero := (@UInt8.isUTF8FirstByte_getElem_utf8EncodeChar c a.length hi).mp
          (hget ▸ hfirst)
        exact absurd (List.length_eq_zero_iff.mp hzero) ha
  · exact ⟨m,hm⟩

theorem lossyChars_append (a : Bytes) {x : UInt8} (hx : x < 128) (bs : Bytes) :
    lossyChars (a++x::bs) = lossyChars a++lossyChars (x::bs) := by
  induction hn : a.length using Nat.strong_induction_on generalizing a with
  | _ n ih =>
    cases a with
    | nil => simp [lossyChars]
    | cons b rest =>
        cases hd : (b::rest++x::bs).toByteArray.utf8DecodeChar? 0 with
        | some c =>
            obtain ⟨a',ha'⟩ := decode_before (List.cons_ne_nil b rest) hx hd
            have hpos := c.utf8Size_pos
            have hlen : a'.length < n := by
              rw [← hn,ha',List.length_append,String.length_utf8EncodeChar]
              omega
            rw [ha',List.append_assoc,lossyChars_encode,lossyChars_encode,ih _ hlen a' rfl,
              List.cons_append]
        | none =>
            have hnone : (b::rest).toByteArray.utf8DecodeChar? 0 = none := by
              by_contra hsome
              obtain ⟨c,hc⟩ := Option.ne_none_iff_exists'.mp hsome
              have := ByteArray.utf8DecodeChar?_append_eq_some hc (x::bs).toByteArray
              rw [← List.toByteArray_append,hd] at this
              cases this
            obtain ⟨heq,hle⟩ := brokenLen_append (b := b) rest hx bs
            have hpos := brokenLen_pos (b::rest)
            have hlen : ((b::rest).drop (brokenLen (b::rest))).length < n := by
              rw [List.length_drop]
              omega
            have hleft : lossyChars (b::rest++x::bs) =
                '\uFFFD'::lossyChars ((b::rest++x::bs).drop (brokenLen (b::rest++x::bs))) := by
              rw [List.cons_append] at hd ⊢
              rw [lossyChars,hd]
            have hright : lossyChars (b::rest) =
                '\uFFFD'::lossyChars ((b::rest).drop (brokenLen (b::rest))) := by
              rw [lossyChars,hnone]
            rw [hleft,hright,heq,List.drop_append_of_le_length hle,ih _ hlen _ rfl,List.cons_append]

end KeepTalkingSfu.Utf8Text
