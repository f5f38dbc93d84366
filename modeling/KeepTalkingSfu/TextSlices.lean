import Mathlib.Algebra.Order.Ring.Nat
import Mathlib.Data.List.Basic

/-!
# Text at byte offsets

A string is its characters, but its length and the places it can be cut at are
counted in bytes of UTF-8. Cutting it inside a character or behind its end is not
an error a program can handle: such a cut has no result here. Searching, trimming
and splitting work on characters, and give offsets that can be cut at.

Numbers are parsed as the integer types of a systems language do it: digits up to
a bound, and in front of them a plus sign if there is one. Nothing here names a
format.
-/
namespace KeepTalkingSfu.TextSlices

/-! ### Offsets -/

/-- Bytes of a text. -/
def width : List Char → ℕ
  | [] => 0
  | c::cs => c.utf8Size+width cs

@[simp] theorem width_nil : width [] = 0 := rfl

@[simp] theorem width_cons (c : Char) (cs : List Char) : width (c::cs) = c.utf8Size+width cs := rfl

@[simp] theorem width_append (cs ds : List Char) : width (cs++ds) = width cs+width ds := by
  induction cs with
  | nil => simp
  | cons c cs ih =>
      rw [List.cons_append,width_cons,width_cons,ih]
      omega

theorem width_eq_zero {cs : List Char} (h : width cs = 0) : cs = [] := by
  cases cs with
  | nil => rfl
  | cons c cs =>
      have := c.utf8Size_pos
      rw [width_cons] at h
      omega

/-- The text from a byte offset on, if a character starts there or it is the end. -/
def dropBytes : ℕ → List Char → Option (List Char)
  | n,[] => if n = 0 then some [] else none
  | n,c::cs =>
      if n = 0 then some (c::cs)
      else if c.utf8Size ≤ n then dropBytes (n-c.utf8Size) cs else none

/-- The text up to a byte offset, if a character ends there. -/
def takeBytes : ℕ → List Char → Option (List Char)
  | n,[] => if n = 0 then some [] else none
  | n,c::cs =>
      if n = 0 then some []
      else if c.utf8Size ≤ n then (takeBytes (n-c.utf8Size) cs).map (c::·) else none

/-- The text between two byte offsets. -/
def slice (i j : ℕ) (cs : List Char) : Option (List Char) := (dropBytes i cs).bind (takeBytes (j-i))

@[simp] theorem dropBytes_zero (cs : List Char) : dropBytes 0 cs = some cs := by
  cases cs <;> rfl

@[simp] theorem takeBytes_zero (cs : List Char) : takeBytes 0 cs = some [] := by
  cases cs <;> rfl

theorem dropBytes_add (cs ds : List Char) (n : ℕ) :
    dropBytes (width cs+n) (cs++ds) = dropBytes n ds := by
  induction cs with
  | nil => simp
  | cons c cs ih =>
      have hpos := c.utf8Size_pos
      rw [List.cons_append,width_cons,dropBytes,if_neg (by omega),if_pos (by omega)]
      rw [show c.utf8Size+width cs+n-c.utf8Size = width cs+n by omega,ih]

theorem dropBytes_width (cs ds : List Char) : dropBytes (width cs) (cs++ds) = some ds := by
  simpa using dropBytes_add cs ds 0

theorem takeBytes_width (cs ds : List Char) : takeBytes (width cs) (cs++ds) = some cs := by
  induction cs with
  | nil => simp
  | cons c cs ih =>
      have hpos := c.utf8Size_pos
      rw [List.cons_append,width_cons,takeBytes,if_neg (by omega),if_pos (by omega),
        Nat.add_sub_cancel_left,ih]
      rfl

/-- A text that was cut off is the first part, of the width asked for. -/
theorem takeBytes_eq_some {n : ℕ} {cs piece : List Char} (h : takeBytes n cs = some piece) :
    width piece = n ∧ ∃ rest, cs = piece++rest := by
  induction cs generalizing n piece with
  | nil =>
      rw [takeBytes] at h
      split_ifs at h with hn
      cases h
      exact ⟨hn.symm,[],rfl⟩
  | cons c cs ih =>
      rw [takeBytes] at h
      split_ifs at h with hn hle
      · cases h
        exact ⟨hn.symm,c::cs,rfl⟩
      · obtain ⟨piece',hp,rfl⟩ := Option.map_eq_some_iff.mp h
        obtain ⟨hw,rest,rfl⟩ := ih hp
        refine ⟨?_,rest,rfl⟩
        rw [width_cons,hw]
        omega

/-! ### Searching -/

/-- The byte offset of the first match of a pattern. -/
def find (pat : List Char) : List Char → Option ℕ
  | [] => if pat = [] then some 0 else none
  | c::cs => if pat.isPrefixOf (c::cs) then some 0 else (find pat cs).map (c.utf8Size+·)

theorem find_here (pat cs : List Char) : find pat (pat++cs) = some 0 := by
  cases h : pat++cs with
  | nil =>
      rw [find,if_pos (List.append_eq_nil_iff.mp h).1]
  | cons c ds =>
      rw [find,if_pos]
      rw [← h,List.isPrefixOf_iff_prefix]
      exact List.prefix_append _ _

/-- A character that does not start the pattern is skipped. -/
theorem find_skip {p : Char} {pat ps cs : List Char} (h : p ∉ ps) :
    find (p::pat) (ps++cs) = (find (p::pat) cs).map (width ps+·) := by
  induction ps with
  | nil => simp
  | cons c ps ih =>
      have hne : ¬(p::pat).isPrefixOf (c::(ps++cs)) = true := by
        rw [List.isPrefixOf_iff_prefix,List.cons_prefix_cons]
        rintro ⟨rfl,-⟩
        exact h List.mem_cons_self
      rw [List.cons_append,find,if_neg hne,ih fun hmem => h (List.mem_cons_of_mem _ hmem),
        Option.map_map]
      congr 1
      funext n
      simp only [Function.comp_apply,width_cons]
      omega

theorem find_cons_of_not {pat cs : List Char} {c : Char} (h : ¬pat <+: c::cs) :
    find pat (c::cs) = (find pat cs).map (c.utf8Size+·) := by
  rw [find,if_neg]
  rwa [List.isPrefixOf_iff_prefix]

/-- A text between two marks. -/
def quoted (q : Char) (v : List Char) : List Char := q::(v++[q])

@[simp] theorem width_quoted (q : Char) (v : List Char) :
    width (quoted q v) = q.utf8Size+(width v+q.utf8Size) := by
  simp [quoted]

/-- Texts without the mark are told apart by where the mark comes. -/
theorem eq_of_marked {q : Char} {key v tail : List Char} (hkey : q ∉ key) (hv : q ∉ v)
    (h : key++[q] <+: v++q::tail) : v = key := by
  induction key generalizing v with
  | nil =>
      cases v with
      | nil => rfl
      | cons c v =>
          rw [List.nil_append,List.cons_append,List.cons_prefix_cons] at h
          rw [h.1] at hv
          exact absurd List.mem_cons_self hv
  | cons k key ih =>
      cases v with
      | nil =>
          rw [List.nil_append,List.cons_append,List.cons_prefix_cons] at h
          rw [h.1] at hkey
          exact absurd List.mem_cons_self hkey
      | cons c v =>
          rw [List.cons_append,List.cons_append,List.cons_prefix_cons] at h
          rw [h.1,ih (fun hk => hkey (List.mem_cons_of_mem _ hk))
            (fun hc => hv (List.mem_cons_of_mem _ hc)) h.2]

/-- Searching a quoted key goes past another quoted text and what separates it from
the rest. -/
theorem find_past {q k s : Char} {key v sep rest : List Char} (hkey : q ∉ k::key) (hv : q ∉ v)
    (hne : v ≠ k::key) (hsep : q ∉ s::sep) (hs : s ≠ k) :
    find (quoted q (k::key)) (quoted q v++(s::sep)++rest) =
      (find (quoted q (k::key)) rest).map (width (quoted q v++s::sep)+·) := by
  have hopen : ¬quoted q (k::key) <+: q::(v++q::(s::sep++rest)) := by
    rw [quoted,List.cons_prefix_cons]
    exact fun h => hne (eq_of_marked hkey hv h.2)
  have hclose : ¬quoted q (k::key) <+: q::(s::sep++rest) := by
    rw [quoted,List.cons_prefix_cons,List.cons_append,List.cons_append,List.cons_prefix_cons]
    exact fun h => hs h.2.1.symm
  have htext : quoted q v++(s::sep)++rest = q::(v++q::(s::sep++rest)) := by simp [quoted]
  rw [htext,find_cons_of_not hopen,quoted,find_skip hv,← quoted,find_cons_of_not hclose,quoted,
    find_skip hsep,← quoted]
  simp only [Option.map_map]
  congr 1
  funext n
  simp only [Function.comp_apply,width_append,width_quoted]
  omega

/-! ### Trimming and splitting -/

/-- The characters with the Unicode property White_Space. -/
def isWhitespace (c : Char) : Bool :=
  let n := c.toNat
  (9 ≤ n && n ≤ 13) || n == 0x20 || n == 0x85 || n == 0xA0 || n == 0x1680 ||
    (0x2000 ≤ n && n ≤ 0x200A) || n == 0x2028 || n == 0x2029 || n == 0x202F || n == 0x205F ||
    n == 0x3000

def trimStart (cs : List Char) : List Char := cs.dropWhile isWhitespace

def trim (cs : List Char) : List Char := (trimStart (trimStart cs).reverse).reverse

theorem trimStart_cons {c : Char} (h : isWhitespace c = false) (cs : List Char) :
    trimStart (c::cs) = c::cs := List.dropWhile_cons_of_neg (by simp [h])

/-- A text without white space is trimmed already. -/
theorem trim_of_solid {cs : List Char} (h : ∀ c ∈ cs, isWhitespace c = false) : trim cs = cs := by
  have hstart : ∀ ds : List Char, (∀ c ∈ ds, isWhitespace c = false) → trimStart ds = ds := by
    intro ds hds
    cases ds with
    | nil => rfl
    | cons c ds => exact trimStart_cons (hds c List.mem_cons_self) ds
  rw [trim,hstart cs h,hstart cs.reverse fun c hc => h c (List.mem_reverse.mp hc),
    List.reverse_reverse]

/-- The text up to the first of the marks: the first part when it is split at them. -/
def upTo (marks cs : List Char) : List Char := cs.takeWhile fun c => c ∉ marks

theorem upTo_mark {marks cs rest : List Char} {m : Char} (hm : m ∈ marks)
    (h : ∀ c ∈ cs, c ∉ marks) : upTo marks (cs++m::rest) = cs := by
  induction cs with
  | nil => simp [upTo,hm]
  | cons c cs ih =>
      have hc : c ∉ marks := h c List.mem_cons_self
      have hrest := ih fun d hd => h d (List.mem_cons_of_mem _ hd)
      rw [upTo] at hrest ⊢
      rw [List.cons_append,List.takeWhile_cons_of_pos (by simpa using hc),hrest]

/-! ### Lines, words and parts -/

/-- The first line, without its line ending. -/
def firstLine (cs : List Char) : List Char :=
  let line := cs.takeWhile (fun c => c ≠ '\n')
  if '\n' ∈ cs ∧ line.getLast? = some '\r' then line.dropLast else line

/-- What comes behind the first line does not matter to it. -/
theorem firstLine_append (cs ds ds' : List Char) :
    firstLine (cs++ '\n'::ds) = firstLine (cs++ '\n'::ds') := by
  have htake : ∀ ds, (cs++ '\n'::ds).takeWhile (fun c => c ≠ '\n') =
      cs.takeWhile (fun c => c ≠ '\n') := by
    intro ds
    induction cs with
    | nil => simp
    | cons c cs ih =>
        rw [List.cons_append,List.takeWhile_cons,List.takeWhile_cons,ih]
  have hmem : ∀ ds, '\n' ∈ cs++ '\n'::ds := by simp
  simp only [firstLine,htake,hmem]

theorem firstLine_crlf {line : List Char} (h : '\n' ∉ line) (ds : List Char) :
    firstLine (line++ '\r':: '\n'::ds) = line := by
  have htake : (line++ '\r':: '\n'::ds).takeWhile (fun c => c ≠ '\n') = line++['\r'] := by
    have hall : ∀ c ∈ line++['\r'], decide (c ≠ '\n') = true := by
      intro c hc
      rcases List.mem_append.mp hc with hc | hc
      · rw [decide_eq_true_eq]
        rintro rfl
        exact h hc
      · rw [List.mem_singleton.mp hc]
        rfl
    have hcut : (line++['\r']++ '\n'::ds).takeWhile (fun c => c ≠ '\n') =
        line++['\r']++('\n'::ds).takeWhile (fun c => c ≠ '\n') := List.takeWhile_append_of_pos hall
    simpa using hcut
  simp only [firstLine,htake]
  simp

/-- The words of a text, the one before it put in front. -/
def wordsFrom : List Char → List Char → List (List Char)
  | word,[] => if word = [] then [] else [word]
  | word,c::cs =>
      if isWhitespace c then (if word = [] then [] else [word])++wordsFrom [] cs
      else wordsFrom (word++[c]) cs

/-- The parts between white space. -/
def words (cs : List Char) : List (List Char) := wordsFrom [] cs

theorem wordsFrom_append {ds : List Char} (h : ∀ c ∈ ds, isWhitespace c = false) (word cs : List Char) :
    wordsFrom word (ds++cs) = wordsFrom (word++ds) cs := by
  induction ds generalizing word with
  | nil => simp
  | cons d ds ih =>
      rw [List.cons_append,wordsFrom,h d List.mem_cons_self,if_neg (by simp),
        ih fun c hc => h c (List.mem_cons_of_mem _ hc),List.append_assoc,List.singleton_append]

theorem words_cons {word cs : List Char} {c : Char} (hne : word ≠ [])
    (h : ∀ c ∈ word, isWhitespace c = false) (hc : isWhitespace c = true) :
    words (word++c::cs) = word::words cs := by
  rw [words,wordsFrom_append h,List.nil_append,wordsFrom,if_pos hc,if_neg hne]
  rfl

/-- The parts before and behind the first match of a pattern. -/
def splitOnce (pat : List Char) : List Char → Option (List Char × List Char)
  | [] => if pat = [] then some ([],[]) else none
  | c::cs =>
      if pat.isPrefixOf (c::cs) then some ([],(c::cs).drop pat.length)
      else (splitOnce pat cs).map fun x => (c::x.1,x.2)

theorem splitOnce_here {p : Char} {pat : List Char} (cs : List Char) :
    splitOnce (p::pat) (p::pat++cs) = some ([],cs) := by
  have hfound : (p::pat).isPrefixOf (p::(pat++cs)) = true := by
    rw [List.isPrefixOf_iff_prefix]
    exact List.prefix_append (p::pat) cs
  rw [List.cons_append,splitOnce,if_pos hfound]
  simp

theorem splitOnce_not {pat cs : List Char} {c : Char} (h : ¬pat <+: c::cs) :
    splitOnce pat (c::cs) = (splitOnce pat cs).map fun x => (c::x.1,x.2) := by
  rw [splitOnce,if_neg]
  rwa [List.isPrefixOf_iff_prefix]

theorem splitOnce_skip {p : Char} {pat ps cs : List Char} (h : p ∉ ps) :
    splitOnce (p::pat) (ps++cs) = (splitOnce (p::pat) cs).map fun x => (ps++x.1,x.2) := by
  induction ps with
  | nil => simp
  | cons c ps ih =>
      have hne : ¬p::pat <+: c::(ps++cs) := by
        rw [List.cons_prefix_cons]
        rintro ⟨rfl,-⟩
        exact h List.mem_cons_self
      rw [List.cons_append,splitOnce_not hne,ih fun hmem => h (List.mem_cons_of_mem _ hmem),
        Option.map_map]
      rfl

/-- The end of a head of lines. -/
def blankLine : List Char := ['\r','\n','\r','\n']

/-- A line with another behind it holds no blank line. -/
theorem splitOnce_line {line next : List Char} (h : '\r' ∉ line) (hnext : next.head? ≠ some '\r') :
    splitOnce blankLine (line++ '\r':: '\n'::next) =
      (splitOnce blankLine next).map fun x => (line++ '\r':: '\n'::x.1,x.2) := by
  have hcr : ¬blankLine <+: '\r':: '\n'::next := by
    rw [blankLine,List.cons_prefix_cons,List.cons_prefix_cons]
    rintro ⟨-,-,cs,rfl⟩
    exact hnext rfl
  have hlf : ¬blankLine <+: '\n'::next := by
    rw [blankLine,List.cons_prefix_cons]
    rintro ⟨h,-⟩
    exact absurd h (by decide)
  rw [blankLine,splitOnce_skip h,← blankLine,splitOnce_not hcr,splitOnce_not hlf]
  simp only [Option.map_map]
  rfl

/-! ### Numbers -/

inductive ParseIntError where
  | empty
  | invalidDigit
  | posOverflow
  deriving DecidableEq, Repr

def ParseIntError.text : ParseIntError → String
  | .empty => "cannot parse integer from empty string"
  | .invalidDigit => "invalid digit found in string"
  | .posOverflow => "number too large to fit in target type"

/-- The value of a digit in a base of at most 36. -/
def toDigit (radix : ℕ) (c : Char) : Option ℕ :=
  let n := c.toNat
  let d := if 48 ≤ n ∧ n ≤ 57 then some (n-48)
    else if 97 ≤ n ∧ n ≤ 122 then some (n-87)
    else if 65 ≤ n ∧ n ≤ 90 then some (n-55)
    else none
  d.filter (· < radix)

/-- Digits behind a value that is there already. -/
def parseDigits (radix bound : ℕ) : ℕ → List Char → Except ParseIntError ℕ
  | value,[] => .ok value
  | value,c::cs =>
      match toDigit radix c with
      | none => .error .invalidDigit
      | some d =>
          if value*radix+d < bound then parseDigits radix bound (value*radix+d) cs
          else .error .posOverflow

/-- An unsigned integer below the bound: digits, with a plus sign or without. -/
def parseUnsigned (radix bound : ℕ) : List Char → Except ParseIntError ℕ
  | [] => .error .empty
  | ['+'] | ['-'] => .error .invalidDigit
  | '+'::cs => parseDigits radix bound 0 cs
  | cs => parseDigits radix bound 0 cs

/-- A text with a character that is no digit is no number. -/
theorem parseDigits_error {radix bound : ℕ} {cs : List Char} (h : ∃ c ∈ cs, toDigit radix c = none)
    (value : ℕ) : ∃ e, parseDigits radix bound value cs = .error e := by
  obtain ⟨c,hc,hnone⟩ := h
  induction cs generalizing value with
  | nil => cases hc
  | cons d cs ih =>
      rw [parseDigits]
      cases hd : toDigit radix d with
      | none => exact ⟨_,rfl⟩
      | some v =>
          rcases List.mem_cons.mp hc with rfl | hc
          · rw [hnone] at hd
            cases hd
          · simp only
            split_ifs
            · exact ih _ hc
            · exact ⟨_,rfl⟩

theorem parseUnsigned_of_unsigned (radix bound : ℕ) {c : Char} (cs : List Char) (hplus : c ≠ '+') :
    parseUnsigned radix bound (c::cs) = .error .invalidDigit ∨
      parseUnsigned radix bound (c::cs) = parseDigits radix bound 0 (c::cs) := by
  unfold parseUnsigned
  split <;> simp_all

/-- The digits of a number in base ten. -/
def decimal (n : ℕ) : List Char :=
  if n < 10 then [Char.ofNat (48+n)] else decimal (n/10)++[Char.ofNat (48+n%10)]

theorem toDigit_decimal {d : ℕ} (h : d < 10) : toDigit 10 (Char.ofNat (48+d)) = some d := by
  have hall : ∀ d : Fin 10, toDigit 10 (Char.ofNat (48+d)) = some d.val := by decide
  exact hall ⟨d,h⟩

theorem parseDigits_decimal {bound n : ℕ} (hn : n < bound) (rest : List Char) :
    parseDigits 10 bound 0 (decimal n++rest) = parseDigits 10 bound n rest := by
  induction n using Nat.strong_induction_on generalizing rest with
  | _ n ih =>
    rw [decimal]
    split_ifs with hlt
    · rw [List.singleton_append,parseDigits,toDigit_decimal hlt]
      simp [hn]
    · have hd : n%10 < 10 := Nat.mod_lt _ (by decide)
      rw [List.append_assoc,ih (n/10) (by omega) (by omega),List.singleton_append,parseDigits,
        toDigit_decimal hd]
      simp only [Nat.div_add_mod',if_pos hn]

/-- Every character of a number in base ten is one of its digits. -/
theorem decimal_digits (n : ℕ) : ∀ c ∈ decimal n, ∃ d < 10, c = Char.ofNat (48+d) := by
  induction n using Nat.strong_induction_on with
  | _ n ih =>
    intro c hc
    rw [decimal] at hc
    split_ifs at hc with hlt
    · exact ⟨n,hlt,List.mem_singleton.mp hc⟩
    · rcases List.mem_append.mp hc with hc | hc
      · exact ih (n/10) (by omega) c hc
      · exact ⟨n%10,Nat.mod_lt _ (by decide),List.mem_singleton.mp hc⟩

theorem decimal_ne_nil (n : ℕ) : decimal n ≠ [] := by
  rw [decimal]
  split_ifs <;> simp

/-- A number that was written is read back. -/
theorem parseUnsigned_decimal {bound n : ℕ} (hn : n < bound) :
    parseUnsigned 10 bound (decimal n) = .ok n := by
  have hplain : parseUnsigned 10 bound (decimal n) = parseDigits 10 bound 0 (decimal n) := by
    have hsigns : ∀ d : Fin 10, Char.ofNat (48+d) ≠ '+' ∧ Char.ofNat (48+d) ≠ '-' := by decide
    cases hcs : decimal n with
    | nil => exact absurd hcs (decimal_ne_nil n)
    | cons c cs =>
        obtain ⟨d,hd,hc⟩ := decimal_digits n c (by rw [hcs]; exact List.mem_cons_self)
        have hc' := hsigns ⟨d,hd⟩
        simp only [← hc] at hc'
        unfold parseUnsigned
        split <;> simp_all
  have hdigits := parseDigits_decimal hn []
  rw [List.append_nil] at hdigits
  rw [hplain,hdigits]
  rfl

end KeepTalkingSfu.TextSlices
