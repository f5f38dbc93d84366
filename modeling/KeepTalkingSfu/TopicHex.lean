import KeepTalkingSfu.BufferReads
import KeepTalkingSfu.TextSlices
import KeepTalkingSfu.WireFormat

/-!
# Topics as hex text

A topic is written as 64 lower-case hex digits, and read back from text of 64
bytes, two bytes at a time. The text is cut at byte offsets, which not every text
has a character at, and each pair goes to the integer parser, which takes a plus
sign too. So a text of 64 hex digits is read, and most others are refused, but a
pair with a sign is taken for a byte, and a character across the end of a pair is
the end of the task.
-/
namespace KeepTalkingSfu.TopicHex
open ByteTransport BufferReads WireFormat TextSlices

/-- The bytes of `count` pairs from the `i`-th on. -/
def hexLoop (s : List Char) : ℕ → ℕ → Except Fault Bytes
  | 0,_ => .ok []
  | count+1,i =>
      match slice (2*i) (2*i+2) s with
      | none => .error .panicked
      | some piece =>
          match parseUnsigned 16 256 piece with
          | .error e => .error (.failed ("topic is not hex: "++e.text))
          | .ok n => (hexLoop s count (i+1)).map (UInt8.ofNat n::·)

theorem hexLoop_length {s : List Char} {count i : ℕ} {bs : Bytes} (h : hexLoop s count i = .ok bs) :
    bs.length = count := by
  induction count generalizing i bs with
  | zero =>
      cases h
      rfl
  | succ count ih =>
      rw [hexLoop] at h
      split at h
      · cases h
      · split at h
        · cases h
        · cases hrest : hexLoop s count (i+1) with
          | error e =>
              rw [hrest] at h
              cases h
          | ok rest =>
              rw [hrest] at h
              cases h
              rw [List.length_cons,ih hrest]

def fromHex (s : String) : Except Fault Topic :=
  if width s.toList = 64 then
    match h : hexLoop s.toList 32 0 with
    | .ok bs => .ok ⟨bs,hexLoop_length h⟩
    | .error e => .error e
  else .error (.failed "topic must be 64 hex digits")

def hex (bytes : Bytes) : List Char := bytes.flatMap fun b => (hexByte b).toList

def display (t : Topic) : String := String.ofList (hex t.bytes)

/-! ### Digits -/

def IsHexDigit (c : Char) : Prop :=
  ('0' ≤ c ∧ c ≤ '9') ∨ ('a' ≤ c ∧ c ≤ 'f') ∨ ('A' ≤ c ∧ c ≤ 'F')

instance (c : Char) : Decidable (IsHexDigit c) := inferInstanceAs (Decidable (_ ∨ _))

theorem isHexDigit_iff (c : Char) : IsHexDigit c ↔
    (48 ≤ c.toNat ∧ c.toNat ≤ 57) ∨ (97 ≤ c.toNat ∧ c.toNat ≤ 102) ∨ (65 ≤ c.toNat ∧ c.toNat ≤ 70) := by
  simp only [IsHexDigit,Char.le_def,UInt32.le_iff_toNat_le]
  rfl

theorem toDigit_eq_none {c : Char} (h : ¬IsHexDigit c) : toDigit 16 c = none := by
  rw [isHexDigit_iff] at h
  simp only [toDigit]
  split_ifs with h₁ h₂ h₃
  · omega
  · simp only [Option.filter_some_eq_none,decide_eq_true_eq]
    omega
  · simp only [Option.filter_some_eq_none,decide_eq_true_eq]
    omega
  · rfl

/-- A hex digit is one byte, and has a value that is written as its lower case. -/
theorem IsHexDigit.spec {c : Char} (h : IsHexDigit c) :
    ∃ v < 16, toDigit 16 c = some v ∧ hexDigit v = c.toLower ∧ c.utf8Size = 1 ∧ c ≠ '+' ∧ c ≠ '-' := by
  have hall : ∀ n : Fin 128, IsHexDigit (Char.ofNat n) → ∃ v < 16,
      toDigit 16 (Char.ofNat n) = some v ∧ hexDigit v = (Char.ofNat n).toLower ∧
        (Char.ofNat n).utf8Size = 1 ∧ Char.ofNat n ≠ '+' ∧ Char.ofNat n ≠ '-' := by decide
  have hlt : c.toNat < 128 := by
    rw [isHexDigit_iff] at h
    omega
  have hc : Char.ofNat c.toNat = c := Char.ofNat_toNat c
  have hspec := hall ⟨c.toNat,hlt⟩
  simp only [hc] at hspec
  exact hspec h

theorem IsHexDigit.utf8Size {c : Char} (h : IsHexDigit c) : c.utf8Size = 1 := by
  obtain ⟨-,-,-,-,hsize,-⟩ := h.spec
  exact hsize

/-! ### Pairs -/

/-- The pairs of characters the integer parser takes: two hex digits, or a plus sign
and one. -/
def Pair (c d : Char) : Prop := (IsHexDigit c ∨ c = '+') ∧ IsHexDigit d

/-- A text of such pairs. -/
inductive Pairs : List Char → Prop
  | nil : Pairs []
  | cons (c d : Char) (cs : List Char) : Pair c d → Pairs cs → Pairs (c::d::cs)

/-- Behind some such pairs come two bytes, of whole characters, that are none. -/
def Stops (cs : List Char) : Prop :=
  ∃ pairs piece rest, cs = pairs++(piece++rest) ∧ Pairs pairs ∧ width piece = 2 ∧
    ∀ c d, piece = [c,d] → ¬Pair c d

theorem Pair.width {c d : Char} (h : Pair c d) : TextSlices.width [c,d] = 2 := by
  have hc : c.utf8Size = 1 := by
    rcases h.1 with hc | rfl
    · exact hc.utf8Size
    · rfl
  rw [width_cons,width_cons,hc,h.2.utf8Size,width_nil]

theorem parse_pair {c d : Char} (h : Pair c d) : ∃ n < 256, parseUnsigned 16 256 [c,d] = .ok n ∧
    (c ≠ '+' → (hexByte (UInt8.ofNat n)).toList = [c.toLower,d.toLower]) := by
  obtain ⟨y,hy,hyd,hlower,-⟩ := h.2.spec
  rcases h.1 with hc | rfl
  · obtain ⟨x,hx,hxc,hxlower,-,hplus,hminus⟩ := hc.spec
    refine ⟨x*16+y,by omega,?_,?_⟩
    · have hparse : parseUnsigned 16 256 [c,d] = parseDigits 16 256 0 [c,d] := by
        unfold parseUnsigned
        split <;> simp_all
      rw [hparse,parseDigits,hxc]
      simp only [Nat.zero_mul,Nat.zero_add,if_pos (by omega : x < 256),parseDigits,hyd,
        if_pos (by omega : x*16+y < 256)]
    · intro _
      have hbyte : (UInt8.ofNat (x*16+y)).toNat = x*16+y := by
        rw [UInt8.toNat_ofNat']
        omega
      rw [hexByte,String.toList_ofList,hbyte,show (x*16+y)/16 = x by omega,
        show (x*16+y)%16 = y by omega,hxlower,hlower]
  · refine ⟨y,by omega,?_,fun hne => absurd rfl hne⟩
    have hparse : parseUnsigned 16 256 ['+',d] = parseDigits 16 256 0 [d] := rfl
    rw [hparse,parseDigits,hyd]
    simp only [Nat.zero_mul,Nat.zero_add,if_pos (by omega : y < 256),parseDigits]

theorem parse_unsigned_other {c : Char} {cs : List Char} (hplus : c ≠ '+')
    (h : ∃ d ∈ c::cs, ¬IsHexDigit d) : ∃ e, parseUnsigned 16 256 (c::cs) = .error e := by
  obtain ⟨d,hd,hnot⟩ := h
  rcases parseUnsigned_of_unsigned 16 256 cs hplus with heq | heq
  · exact ⟨_,heq⟩
  · rw [heq]
    exact parseDigits_error ⟨d,hd,toDigit_eq_none hnot⟩ 0

/-- Two bytes that are no pair are refused. -/
theorem parse_other {piece : List Char} (hwidth : width piece = 2)
    (h : ∀ c d, piece = [c,d] → ¬Pair c d) : ∃ e, parseUnsigned 16 256 piece = .error e := by
  match piece with
  | [] => cases hwidth
  | [c] =>
      apply parse_unsigned_other
      · rintro rfl
        cases hwidth
      · refine ⟨c,List.mem_cons_self,?_⟩
        intro hc
        rw [width_cons,hc.utf8Size,width_nil] at hwidth
        cases hwidth
  | [c,d] =>
      have hnot := h c d rfl
      by_cases hplus : c = '+'
      · subst hplus
        have hd : ¬IsHexDigit d := fun hd => hnot ⟨.inr rfl,hd⟩
        exact parseDigits_error ⟨d,List.mem_cons_self,toDigit_eq_none hd⟩ 0
      · apply parse_unsigned_other hplus
        by_contra hall
        push Not at hall
        exact hnot ⟨.inl (hall c (by simp)),hall d (by simp)⟩
  | c::d::x::rest =>
      have hc := c.utf8Size_pos
      have hd := d.utf8Size_pos
      have hx := x.utf8Size_pos
      simp only [width_cons] at hwidth
      omega

/-! ### The loop -/

theorem slice_pair {done rest : List Char} {i : ℕ} (h : width done = 2*i) :
    slice (2*i) (2*i+2) (done++rest) = takeBytes 2 rest := by
  rw [slice,← h,dropBytes_width,Option.bind_some,Nat.add_sub_cancel_left]

/-- One pair further. -/
theorem hexLoop_pair {done : List Char} {i : ℕ} (hdone : width done = 2*i) {c d : Char}
    (h : Pair c d) (rest : List Char) (count : ℕ) : ∃ b : UInt8, hexLoop (done++c::d::rest) (count+1) i =
      (hexLoop (done++[c,d]++rest) count (i+1)).map (b::·) ∧
      (c ≠ '+' → (hexByte b).toList = [c.toLower,d.toLower]) ∧ width (done++[c,d]) = 2*(i+1) := by
  obtain ⟨n,hn,hparse,hlower⟩ := parse_pair h
  have hpiece : takeBytes 2 (c::d::rest) = some [c,d] := by
    rw [← h.width]
    exact takeBytes_width [c,d] rest
  refine ⟨UInt8.ofNat n,?_,hlower,?_⟩
  · rw [hexLoop,slice_pair hdone,hpiece]
    simp only [hparse]
    rw [List.append_assoc]
    rfl
  · rw [width_append,hdone,h.width]
    omega

/-- A text of pairs is read, and written back in lower case if it has no sign. -/
theorem hexLoop_pairs {done rest : List Char} {i count : ℕ} (hrest : Pairs rest)
    (hdone : width done = 2*i) (hwidth : width rest = 2*count) :
    ∃ bs, hexLoop (done++rest) count i = .ok bs ∧
      ('+' ∉ rest → hex bs = rest.map Char.toLower) := by
  induction hrest generalizing done i count with
  | nil =>
      obtain rfl : count = 0 := by
        rw [width_nil] at hwidth
        omega
      exact ⟨[],rfl,fun _ => rfl⟩
  | cons c d cs hpair _ ih =>
      have htwo := hpair.width
      simp only [width_cons,width_nil] at hwidth htwo
      obtain ⟨count,rfl⟩ : ∃ k, count = k+1 := ⟨count-1,by omega⟩
      obtain ⟨b,hloop,hlower,hdone'⟩ := hexLoop_pair hdone hpair cs count
      obtain ⟨bs,hbs,hback⟩ := ih hdone' (show width cs = 2*count by omega)
      refine ⟨b::bs,?_,?_⟩
      · rw [hloop,hbs]
        rfl
      · intro hplus
        have hc : c ≠ '+' := fun hc => hplus (hc ▸ List.mem_cons_self)
        have hcs : '+' ∉ cs := fun h => hplus (List.mem_cons_of_mem _ (List.mem_cons_of_mem _ h))
        rw [hex,List.flatMap_cons,hlower hc,← hex,hback hcs]
        rfl

/-- A text that stops being pairs at a whole piece is refused. -/
theorem hexLoop_stops {pairs piece rest done : List Char} {i count : ℕ} (hpairs : Pairs pairs)
    (hpiece : width piece = 2) (hnot : ∀ c d, piece = [c,d] → ¬Pair c d) (hdone : width done = 2*i)
    (hwidth : width (pairs++(piece++rest)) = 2*count) :
    ∃ text, hexLoop (done++(pairs++(piece++rest))) count i = .error (.failed text) := by
  induction hpairs generalizing done i count with
  | nil =>
      rw [List.nil_append,width_append] at hwidth
      obtain ⟨count,rfl⟩ : ∃ k, count = k+1 := ⟨count-1,by omega⟩
      obtain ⟨e,he⟩ := parse_other hpiece hnot
      have htake : takeBytes 2 (piece++rest) = some piece := by
        rw [← hpiece]
        exact takeBytes_width piece rest
      refine ⟨"topic is not hex: "++e.text,?_⟩
      rw [List.nil_append,hexLoop,slice_pair hdone,htake]
      simp only [he]
  | cons c d cs hpair _ ih =>
      have htwo := hpair.width
      simp only [List.cons_append,width_cons,width_nil] at hwidth htwo
      obtain ⟨count,rfl⟩ : ∃ k, count = k+1 := ⟨count-1,by omega⟩
      obtain ⟨b,hloop,-,hdone'⟩ := hexLoop_pair hdone hpair (cs++(piece++rest)) count
      obtain ⟨text,htext⟩ := ih hdone' (show width (cs++(piece++rest)) = 2*count by omega)
      refine ⟨text,?_⟩
      rw [List.cons_append,List.cons_append,hloop,htext]
      rfl

/-- What the loop makes of a text tells which kind of text it is. -/
theorem hexLoop_kind {done rest : List Char} {i count : ℕ} (hdone : width done = 2*i)
    (hwidth : width rest = 2*count) :
    Pairs rest ∨ Stops rest ∨ hexLoop (done++rest) count i = .error .panicked := by
  induction count generalizing done rest i with
  | zero =>
      left
      rw [width_eq_zero hwidth]
      exact .nil
  | succ count ih =>
      cases hpiece : takeBytes 2 rest with
      | none =>
          right
          right
          rw [hexLoop,slice_pair hdone,hpiece]
      | some piece =>
          obtain ⟨hw,tail,rfl⟩ := takeBytes_eq_some hpiece
          by_cases hpair : ∃ c d, piece = [c,d] ∧ Pair c d
          · obtain ⟨c,d,rfl,hpair⟩ := hpair
            rw [width_append,hw] at hwidth
            obtain ⟨b,hloop,-,hdone'⟩ := hexLoop_pair hdone hpair tail count
            rcases ih hdone' (show width tail = 2*count by omega) with hkind | hkind | hkind
            · exact .inl (.cons c d tail hpair hkind)
            · obtain ⟨pairs,piece,rest,rfl,hpairs,hstop⟩ := hkind
              exact .inr (.inl ⟨c::d::pairs,piece,rest,rfl,.cons c d pairs hpair hpairs,hstop⟩)
            · right
              right
              rw [List.cons_append,List.cons_append,List.nil_append,hloop,hkind]
              rfl
          · right
            left
            refine ⟨[],piece,tail,rfl,.nil,hw,?_⟩
            intro c d hcd hp
            exact hpair ⟨c,d,hcd,hp⟩

/-! ### The grammar -/

def IsHexText (s : String) : Prop := s.toList.length = 64 ∧ ∀ c ∈ s.toList, IsHexDigit c

instance (s : String) : Decidable (IsHexText s) :=
  @instDecidableAnd _ _ inferInstance (List.decidableBAll _ _)

theorem width_of_digits {cs : List Char} (h : ∀ c ∈ cs, IsHexDigit c) : width cs = cs.length := by
  induction cs with
  | nil => rfl
  | cons c cs ih =>
      rw [width_cons,(h c List.mem_cons_self).utf8Size,ih fun d hd => h d (List.mem_cons_of_mem _ hd),
        List.length_cons]
      omega

theorem Pairs.digits {cs : List Char} (h : Pairs cs) (hplus : '+' ∉ cs) : ∀ c ∈ cs, IsHexDigit c := by
  induction h with
  | nil => nofun
  | cons c d cs hpair _ ih =>
      intro x hx
      rcases List.mem_cons.mp hx with rfl | hx
      · rcases hpair.1 with hc | rfl
        · exact hc
        · exact absurd List.mem_cons_self hplus
      · rcases List.mem_cons.mp hx with rfl | hx
        · exact hpair.2
        · exact ih (fun h => hplus (List.mem_cons_of_mem _ (List.mem_cons_of_mem _ h))) x hx

/-- Hex digits do not stop being pairs before they end. -/
theorem not_stops_of_digits {cs : List Char} (h : ∀ c ∈ cs, IsHexDigit c) : ¬Stops cs := by
  rintro ⟨pairs,piece,rest,rfl,-,hwidth,hnot⟩
  have hpiece : ∀ c ∈ piece, IsHexDigit c :=
    fun c hc => h c (List.mem_append_right _ (List.mem_append_left _ hc))
  rw [width_of_digits hpiece] at hwidth
  obtain ⟨c,d,rfl⟩ := List.length_eq_two.mp hwidth
  exact hnot c d rfl ⟨.inl (hpiece c (by simp)),hpiece d (by simp)⟩

theorem fromHex_of_ok {s : String} (hwidth : width s.toList = 64) {bs : Bytes}
    (h : hexLoop s.toList 32 0 = .ok bs) : ∃ t, fromHex s = .ok t ∧ t.bytes = bs := by
  unfold fromHex
  rw [if_pos hwidth]
  split
  · next bs' hloop =>
    rw [h] at hloop
    cases hloop
    exact ⟨_,rfl,rfl⟩
  · next e hloop =>
    rw [h] at hloop
    cases hloop

theorem fromHex_of_error {s : String} (hwidth : width s.toList = 64) {e : Fault}
    (h : hexLoop s.toList 32 0 = .error e) : fromHex s = .error e := by
  unfold fromHex
  rw [if_pos hwidth]
  split
  · next bs hloop =>
    rw [h] at hloop
    cases hloop
  · next e' hloop =>
    rw [h] at hloop
    cases hloop
    rfl

/-- Nothing of the text is read yet. -/
theorem width_start : width [] = 2*0 := rfl

/-- The text is read if and only if it is 64 hex digits, and what is read is shown as
the text in lower case. -/
structure Exact (s : String) : Prop where
  returns : fromHex s ≠ .error .panicked
  accepts : (∃ t, fromHex s = .ok t) ↔ IsHexText s
  shows : ∀ t, fromHex s = .ok t → (display t).toList = s.toList.map Char.toLower

/-- The text does not have 64 bytes, or it is pairs without a sign, or the first two
bytes that are no pair are whole characters. -/
def Regular (s : String) : Prop :=
  width s.toList ≠ 64 ∨ (Pairs s.toList ∧ '+' ∉ s.toList) ∨ Stops s.toList

theorem exact_of_refused {s : String} {text : String} (h : fromHex s = .error (.failed text))
    (hnot : ¬IsHexText s) : Exact s where
  returns := by
    rw [h]
    nofun
  accepts := by
    refine iff_of_false ?_ hnot
    rintro ⟨t,ht⟩
    rw [h] at ht
    cases ht
  shows := by
    intro t ht
    rw [h] at ht
    cases ht

theorem IsHexText.width {s : String} (h : IsHexText s) : TextSlices.width s.toList = 64 :=
  (width_of_digits h.2).trans h.1

theorem Regular.exact {s : String} (h : Regular s) : Exact s := by
  by_cases hwidth : width s.toList = 64
  · rcases h with hwidth' | ⟨hpairs,hplus⟩ | hstops
    · exact absurd hwidth hwidth'
    · obtain ⟨bs,hloop,hback⟩ := hexLoop_pairs hpairs width_start
        (show width s.toList = 2*32 from hwidth)
      obtain ⟨t,ht,hbytes⟩ := fromHex_of_ok hwidth hloop
      have hdigits := hpairs.digits hplus
      refine ⟨by rw [ht]; nofun,iff_of_true ⟨t,ht⟩ ⟨?_,hdigits⟩,?_⟩
      · rw [← width_of_digits hdigits,hwidth]
      · intro t' ht'
        rw [ht] at ht'
        cases ht'
        rw [display,String.toList_ofList,hbytes,hback hplus]
    · have hnot : ¬IsHexText s := fun hs => not_stops_of_digits hs.2 hstops
      obtain ⟨pairs,piece,rest,hs,hpairs,hpiece,hother⟩ := hstops
      obtain ⟨text,hloop⟩ := hexLoop_stops hpairs hpiece hother width_start
        (show width (pairs++(piece++rest)) = 2*32 by rw [← hs,hwidth])
      rw [← hs] at hloop
      exact exact_of_refused (fromHex_of_error hwidth hloop) hnot
  · exact exact_of_refused (if_neg hwidth) fun hs => hwidth hs.width

theorem Exact.regular {s : String} (h : Exact s) : Regular s := by
  by_cases hwidth : width s.toList = 64
  · right
    rcases hexLoop_kind width_start (show width s.toList = 2*32 from hwidth) with
      hpairs | hstops | hpanic
    · left
      obtain ⟨bs,hloop,-⟩ := hexLoop_pairs hpairs width_start
        (show width s.toList = 2*32 from hwidth)
      obtain ⟨t,ht,-⟩ := fromHex_of_ok hwidth hloop
      refine ⟨hpairs,?_⟩
      intro hplus
      obtain ⟨-,-,-,-,-,hne,-⟩ := ((h.accepts.mp ⟨t,ht⟩).2 '+' hplus).spec
      exact hne rfl
    · exact .inr hstops
    · exact absurd (fromHex_of_error hwidth hpanic) h.returns
  · exact .inl hwidth

/-! ### Writing and reading back -/

theorem hexDigit_spec {n : ℕ} (h : n < 16) :
    IsHexDigit (hexDigit n) ∧ (hexDigit n).toLower = hexDigit n ∧ hexDigit n ≠ '+' := by
  have hall : ∀ n : Fin 16, IsHexDigit (hexDigit n) ∧ (hexDigit n).toLower = hexDigit n ∧
      hexDigit n ≠ '+' := by decide
  exact hall ⟨n,h⟩

theorem hexDigit_inj {m n : ℕ} (hm : m < 16) (hn : n < 16) (h : hexDigit m = hexDigit n) : m = n := by
  have hall : ∀ m n : Fin 16, hexDigit m = hexDigit n → m = n := by decide
  exact congrArg Fin.val (hall ⟨m,hm⟩ ⟨n,hn⟩ h)

theorem hex_cons (b : UInt8) (bs : Bytes) :
    hex (b::bs) = hexDigit (b.toNat/16)::hexDigit (b.toNat%16)::hex bs := by
  rw [hex,List.flatMap_cons,hexByte,String.toList_ofList]
  rfl

/-- Different bytes are written differently. -/
theorem hex_inj {as bs : Bytes} (h : hex as = hex bs) : as = bs := by
  induction as generalizing bs with
  | nil =>
      cases bs with
      | nil => rfl
      | cons b bs =>
          rw [hex_cons] at h
          cases h
  | cons a as ih =>
      cases bs with
      | nil =>
          rw [hex_cons] at h
          cases h
      | cons b bs =>
          have ha := a.toNat_lt
          have hb := b.toNat_lt
          rw [hex_cons,hex_cons] at h
          injection h with hhigh h
          injection h with hlow h
          have hdiv := hexDigit_inj (by omega) (by omega) hhigh
          have hmod := hexDigit_inj (by omega) (by omega) hlow
          rw [ih h,UInt8.toNat_inj.mp (by omega : a.toNat = b.toNat)]

/-- Written bytes are pairs of lower-case digits. -/
theorem hex_pairs (bs : Bytes) : Pairs (hex bs) ∧ '+' ∉ hex bs ∧
    (hex bs).map Char.toLower = hex bs ∧ width (hex bs) = 2*bs.length := by
  induction bs with
  | nil => exact ⟨.nil,nofun,rfl,rfl⟩
  | cons b bs ih =>
      obtain ⟨hpairs,hplus,hlower,hwidth⟩ := ih
      have hb := b.toNat_lt
      obtain ⟨hhigh,hhigh',hhighne⟩ := hexDigit_spec (by omega : b.toNat/16 < 16)
      obtain ⟨hlow,hlow',hlowne⟩ := hexDigit_spec (by omega : b.toNat%16 < 16)
      have hpair : Pair (hexDigit (b.toNat/16)) (hexDigit (b.toNat%16)) := ⟨.inl hhigh,hlow⟩
      have htwo := hpair.width
      rw [hex_cons]
      refine ⟨.cons _ _ _ hpair hpairs,?_,?_,?_⟩
      · simp [hplus,Ne.symm hhighne,Ne.symm hlowne]
      · rw [List.map_cons,List.map_cons,hhigh',hlow',hlower]
      · rw [width_cons,width_cons,hwidth,List.length_cons]
        simp only [width_cons,width_nil] at htwo
        omega

theorem fromHex_display (t : Topic) : fromHex (display t) = .ok t := by
  have htext : (display t).toList = hex t.bytes := String.toList_ofList
  obtain ⟨hpairs,hplus,hlower,hwidth⟩ := hex_pairs t.bytes
  rw [t.length_eq] at hwidth
  rw [← htext] at hpairs hplus hlower hwidth
  obtain ⟨bs,hloop,hback⟩ := hexLoop_pairs hpairs width_start hwidth
  obtain ⟨t',ht',hbytes⟩ := fromHex_of_ok hwidth hloop
  have hsame : hex bs = hex t.bytes := by rw [hback hplus,hlower,htext]
  obtain ⟨bytes,hlen⟩ := t
  obtain ⟨bytes',hlen'⟩ := t'
  cases hbytes
  cases hex_inj hsame
  exact ht'

/-- **Topics as hex text**: a text is read exactly as its grammar says unless it has a
pair with a sign or a character across the end of a pair, and a topic that was
written is always read back. -/
theorem topic_hex_exact_iff (s : String) :
    (Exact s ↔ Regular s) ∧ ∀ t : Topic, fromHex (display t) = .ok t := by
  refine ⟨?_,fromHex_display⟩
  constructor
  · exact Exact.regular
  · exact Regular.exact

/-- A sign in every pair. -/
def signedText : String := String.ofList (List.replicate 32 ['+','0']).flatten

/-- A character of three bytes, and digits up to 64 bytes. -/
def brokenText : String := String.ofList ('€'::List.replicate 61 '0')

/-- The one is no hex text and is read as the all-zero topic, the other is the end of
the task. -/
theorem signed_text_accepted :
    fromHex signedText = .ok Topic.zero ∧ ¬IsHexText signedText ∧ ¬Exact signedText ∧
    fromHex brokenText = .error .panicked ∧ ¬Exact brokenText := by
  have hsigned : fromHex signedText = .ok Topic.zero := by decide +kernel
  have hnot : ¬IsHexText signedText := by decide +kernel
  have hbroken : fromHex brokenText = .error .panicked := by decide +kernel
  exact ⟨hsigned,hnot,fun h => hnot (h.accepts.mp ⟨_,hsigned⟩),hbroken,fun h => h.returns hbroken⟩

end KeepTalkingSfu.TopicHex
