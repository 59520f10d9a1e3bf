/-
# Structs as they are written

A struct written in the usual way, with one field to a line, reads as that struct: each of its lines
matches its own pattern, with the words in its groups, and no other (`found_print`).  So a file of
such structs is a file of structs for the generator (`reads_print`).

That a line does not match is shown by a character that it lacks, for most of the patterns.  The
scalar pattern wants a space between two words before the semicolon (`find_scalar_none`), and the
patterns for arrays differ in what is between their brackets (`find_literal_none`).
-/
import Mathlib.Data.List.Basic
import Capwap.Script.Interface

namespace Capwap.Script

open Pattern

/-! ## 1. Words

A word is what `\w+` matches wholly.  It lacks the characters by which the patterns differ, and
this is how most of the lines below are told apart. -/

instance (p : Char → Bool) (t : Text) : Decidable (∀ c ∈ t, p c = true) :=
  List.decidableBAll (fun c => p c = true) t

def IsWord (t : Text) : Prop := t ≠ [] ∧ ∀ c ∈ t, isWord c = true

instance (t : Text) : Decidable (IsWord t) := by
  unfold IsWord
  infer_instance

def IsNumber (t : Text) : Prop := t ≠ [] ∧ ∀ c ∈ t, c.isDigit = true

theorem isWord_range {c : Char} (h : isWord c = true) :
    (97 ≤ c.toNat ∧ c.toNat ≤ 122) ∨ (65 ≤ c.toNat ∧ c.toNat ≤ 90) ∨
      (48 ≤ c.toNat ∧ c.toNat ≤ 57) ∨ c.toNat = 95 := by
  unfold isWord at h
  rcases Bool.or_eq_true_iff.mp h with h | h
  · rcases Bool.or_eq_true_iff.mp h with h | hdigit
    · rcases Bool.or_eq_true_iff.mp h with hupper | hlower
      · exact Or.inr (Or.inl (of_decide_eq_true hupper))
      · obtain ⟨hfirst, hlast⟩ := Bool.and_eq_true_iff.mp hlower
        exact Or.inl ⟨of_decide_eq_true hfirst, of_decide_eq_true hlast⟩
    · exact Or.inr (Or.inr (Or.inl (Char.isDigit_iff_toNat.mp hdigit)))
  · obtain rfl := eq_of_beq h
    decide

/-- A word has no spaces. -/
theorem isSpace_of_isWord {c : Char} (h : isWord c = true) : isSpace c = false := by
  have hrange := isWord_range h
  unfold isSpace
  simp only [List.mem_cons, List.not_mem_nil, or_false, Bool.or_eq_false_iff,
    decide_eq_false_iff_not]
  refine ⟨by omega, ?_⟩
  simp only [Bool.and_eq_false_iff, decide_eq_false_iff_not]
  omega

theorem isWord_of_isDigit {c : Char} (h : c.isDigit = true) : isWord c = true := by
  unfold isWord Char.isAlphanum
  simp [h]

theorem IsNumber.isWord {t : Text} (h : IsNumber t) : IsWord t :=
  ⟨h.1, fun c hc => isWord_of_isDigit (h.2 c hc)⟩

/-- A character is not in a text. -/
def Lacks (c : Char) (t : Text) : Prop := ∀ x ∈ t, (x == c) = false

instance (c : Char) (t : Text) : Decidable (Lacks c t) :=
  List.decidableBAll (fun x => (x == c) = false) t

theorem Lacks.append {c : Char} {s t : Text} (hs : Lacks c s) (ht : Lacks c t) :
    Lacks c (s ++ t) := by
  intro x hx
  rcases List.mem_append.mp hx with hx | hx
  · exact hs x hx
  · exact ht x hx

theorem Lacks.notMem {c : Char} {t : Text} (h : Lacks c t) : c ∉ t := by
  intro hc
  have hself := h c hc
  rw [beq_self_eq_true] at hself
  cases hself

/-- What no word has. -/
theorem lacks_of_word {c : Char} {t : Text} (h : ∀ x ∈ t, isWord x = true) (hc : isWord c = false) :
    Lacks c t := by
  intro x hx
  by_contra heq
  obtain rfl : x = c := by simpa using heq
  rw [h x hx] at hc
  cases hc

theorem IsWord.lacks {c : Char} {t : Text} (h : IsWord t) (hc : isWord c = false) : Lacks c t :=
  lacks_of_word h.2 hc

theorem IsWord.stops {t : Text} (h : IsWord t) (s : Text) : Stops isSpace (t ++ s) := by
  obtain ⟨c, t, rfl⟩ := List.exists_cons_of_ne_nil h.1
  rintro _ ⟨⟩
  exact isSpace_of_isWord (h.2 _ List.mem_cons_self)

/-! ## 2. Lines that do not match

For each pattern there is a character that it cannot do without.  Two need more than that.  The
scalar pattern has nothing that the line of an array lacks, but what comes before the semicolon
there is not a word; and the patterns for arrays have the same brackets with different texts in
them. -/

theorem lit_mem {c : Char} {s : String} (h : c ∈ txt s) : Piece.one (· == c) ∈ lit s :=
  List.mem_map_of_mem h

theorem find_comment_none {line : Text} (h : Lacks '/' line) : find commentLine line = none :=
  find_of_absent (List.mem_append_left _ (List.mem_append_right _ (lit_mem (by decide)))) h

theorem find_typedef_none {line : Text} (h : Lacks '\x7b' line) : find typedefLine line = none :=
  find_of_absent (List.mem_append_right _ (lit_mem (by decide))) h

theorem find_end_none {line : Text} (h : Lacks '\x7d' line) : find endLine line = none :=
  find_of_absent (List.mem_append_left _ (List.mem_append_left _
    (List.mem_append_left _ (lit_mem (by decide))))) h

theorem find_pointer_none {line : Text} (h : Lacks '*' line) : find pointerLine line = none :=
  find_of_absent (List.mem_append_left _ (List.mem_append_left _
    (List.mem_append_right _ (lit_mem (by decide))))) h

theorem find_bitset_none {line : Text} (h : Lacks ':' line) : find bitsetLine line = none :=
  find_of_absent (List.mem_append_left _ (List.mem_append_left _ (List.mem_append_left _
    (List.mem_append_right _ (lit_mem (by decide)))))) h

/-- What the five patterns for arrays find. -/
def foundArrays (line : Text) : List Found :=
  (find macAddrLine line).toList.map (fun parts => Found.field (.macAddr (parts.getD 0 []))) ++
  (find macAddrMaxLine line).toList.map
    (fun parts => Found.field (.macAddrMax (parts.getD 0 []))) ++
  (find macAddrEthLine line).toList.map
    (fun parts => Found.field (.macAddrEth (parts.getD 0 []))) ++
  (find keyLine line).toList.map (fun parts => Found.field (.keyMax (parts.getD 0 []))) ++
  (find arrayLine line).toList.map
    (fun parts => Found.field (.array (parts.getD 0 []) (parts.getD 1 []) (parts.getD 2 [])))

theorem foundArrays_nil {line : Text} (h : Lacks '[' line) : foundArrays line = [] := by
  have hmac : find macAddrLine line = none :=
    find_of_absent (List.mem_append_right _ (lit_mem (by decide))) h
  have hmax : find macAddrMaxLine line = none :=
    find_of_absent (List.mem_append_right _ (lit_mem (by decide))) h
  have heth : find macAddrEthLine line = none :=
    find_of_absent (List.mem_append_right _ (lit_mem (by decide))) h
  have hkey : find keyLine line = none :=
    find_of_absent (List.mem_append_right _ (lit_mem (by decide))) h
  have harray : find arrayLine line = none :=
    find_of_absent (List.mem_append_left _ (List.mem_append_left _
      (List.mem_append_right _ (lit_mem (by decide))))) h
  unfold foundArrays
  rw [hmac, hmax, heth, hkey, harray]
  rfl

/-- What is found in a line that is no comment: what each of the other patterns finds, in their
order. -/
theorem found_plain {line : Text} (hslash : Lacks '/' line) : found line =
    (find typedefLine line).toList.map (fun parts => Found.typedef (parts.getD 0 [])) ++
      foundArrays line ++
      (find scalarLine line).toList.map
        (fun parts => Found.field (.scalar (parts.getD 0 []) (parts.getD 1 []))) ++
      (find pointerLine line).toList.map
        (fun parts => Found.field (.pointer (parts.getD 0 []) (parts.getD 1 []))) ++
      (find bitsetLine line).toList.map (fun parts => Found.field (.bitset (parts.getD 0 []))) ++
      (find endLine line).toList.map (fun _ => Found.finish) := by
  unfold found foundArrays
  rw [find_comment_none hslash]
  simp [List.append_assoc]

/-- What is found in a line that is no comment and has no braces. -/
theorem found_field {line : Text} (hslash : Lacks '/' line) (hopen : Lacks '\x7b' line)
    (hclose : Lacks '\x7d' line) : found line = foundArrays line ++
      (find scalarLine line).toList.map
        (fun parts => Found.field (.scalar (parts.getD 0 []) (parts.getD 1 []))) ++
      (find pointerLine line).toList.map
        (fun parts => Found.field (.pointer (parts.getD 0 []) (parts.getD 1 []))) ++
      (find bitsetLine line).toList.map (fun parts => Found.field (.bitset (parts.getD 0 []))) := by
  rw [found_plain hslash, find_typedef_none hopen, find_end_none hclose]
  simp

/-- In spaces followed by a word, no word is followed by spaces: the spaces come first, and behind
the word there is nothing. -/
theorem no_word_before_space {spaces word z t spaces' t' : Text}
    (hspaces : ∀ c ∈ spaces, isSpace c = true) (hword : ∀ c ∈ word, isWord c = true)
    (ht : t ≠ []) (htw : ∀ c ∈ t, isWord c = true) (hs : spaces' ≠ [])
    (hss : ∀ c ∈ spaces', isSpace c = true) : spaces ++ word ≠ z ++ t ++ (spaces' ++ t') := by
  intro heq
  obtain ⟨x, hx⟩ := List.exists_mem_of_ne_nil t ht
  obtain ⟨y, hy⟩ := List.exists_mem_of_ne_nil spaces' hs
  have hxs := isSpace_of_isWord (htw x hx)
  rcases List.append_eq_append_iff.mp heq with ⟨as, -, hword'⟩ | ⟨bs, hspaces', -⟩
  · have hyw := isSpace_of_isWord (hword y (by rw [hword']; simp [hy]))
    rw [hss y hy] at hyw
    cases hyw
  · rw [hspaces x (by rw [hspaces']; simp [hx])] at hxs
    cases hxs

/-- A line whose end, before the semicolon, is spaces and a word after something else: that is not
two words.  The match has to end at the semicolon, so its last word is the one in front of it. -/
theorem find_scalar_none {y spaces word : Text} {d : Char} (hd : isWord d = false)
    (hd' : isSpace d = false) (hspaces : ∀ c ∈ spaces, isSpace c = true)
    (hword : ∀ c ∈ word, isWord c = true) (hsemi : ';' ∉ y ++ d :: (spaces ++ word)) :
    find scalarLine (y ++ d :: (spaces ++ word) ++ [';']) = none := by
  cases hf : find scalarLine (y ++ d :: (spaces ++ word) ++ [';']) with
  | none => rfl
  | some groups =>
    obtain ⟨a, u, v, hline, hm⟩ := find_sound hf
    have hm : Pattern.Matches (.plus isSpace :: .group isWord :: .plus isSpace ::
      .group isWord :: lit ";") u groups := hm
    obtain ⟨t₁, _, rfl, -, -, hm⟩ := hm.of_plus
    obtain ⟨t₂, _, _, rfl, rfl, hne₂, ht₂, hm⟩ := hm.of_group
    obtain ⟨t₃, _, rfl, hne₃, ht₃, hm⟩ := hm.of_plus
    obtain ⟨t₄, s, _, rfl, rfl, -, ht₄, hm⟩ := hm.of_group
    obtain rfl : s = [';'] := Matches.exactly hm
    have hcut : y ++ d :: (spaces ++ word) = a ++ t₁ ++ (t₂ ++ (t₃ ++ t₄)) := by
      have heq : y ++ d :: (spaces ++ word) ++ ';' :: []
          = a ++ t₁ ++ (t₂ ++ (t₃ ++ t₄)) ++ ';' :: v := by
        simpa [List.append_assoc] using hline
      exact ((List.append_cons_inj_of_notMem hsemi (by simp)).mp heq).1
    -- what stands before the last words and spaces is not one of them
    have hnot : d ∉ t₂ ++ (t₃ ++ t₄) := by
      intro hmem
      rcases List.mem_append.mp hmem with hmem | hmem
      · rw [ht₂ d hmem] at hd
        cases hd
      rcases List.mem_append.mp hmem with hmem | hmem
      · rw [ht₃ d hmem] at hd'
        cases hd'
      · rw [ht₄ d hmem] at hd
        cases hd
    rcases List.append_eq_append_iff.mp hcut with ⟨as, -, hrest⟩ | ⟨bs, -, hrest⟩
    · cases as with
      | nil => exact absurd (hrest ▸ List.mem_cons_self) hnot
      | cons x as =>
        obtain ⟨-, hrest⟩ := List.cons.inj hrest
        exact absurd (hrest.trans (List.append_assoc ..).symm)
          (no_word_before_space hspaces hword hne₂ ht₂ hne₃ ht₃)
    · exact absurd (hrest ▸ List.mem_append_right _ List.mem_cons_self) hnot

/-- What stands between the brackets of a match stands between those of the line, since there is
only one bracket of either kind. -/
theorem bracket_body {before body a b v : Text} (hbefore : '[' ∉ before) (hbody : '[' ∉ body)
    (hbody' : ']' ∉ body)
    (h : before ++ '[' :: (body ++ txt "];") = a ++ '[' :: (b ++ txt "];") ++ v) : body = b := by
  have hopen : '[' ∉ body ++ txt "];" := by
    intro hmem
    rcases List.mem_append.mp hmem with hmem | hmem
    · exact hbody hmem
    · exact absurd hmem (by decide)
  rw [List.append_assoc, List.cons_append] at h
  have hrest := ((List.append_cons_inj_of_notMem hbefore hopen).mp h).2.2
  have hclose : body ++ ']' :: [';'] = b ++ ']' :: (';' :: v) := by
    simpa [txt, List.append_assoc] using hrest
  exact ((List.append_cons_inj_of_notMem hbody' (by decide)).mp hclose).1

/-! ## 3. The lines of fields

A field is written as a C programmer would: four spaces, the type, a space, the name.  Such a line
is matched by its own pattern, with its words in the groups, and by no other. -/

/-- The start of a declaration, and its rest. -/
def declare (type s : Text) : Text := txt "    " ++ (type ++ (txt " " ++ s))

/-- The line of an array. -/
def bracketed (type name body : Text) : Text :=
  declare type (name ++ '[' :: (body ++ txt "];"))

/-- The line of a field; `type` and `len` are those of the bit-fields, which do not keep them. -/
def Field.print (type len : Text) : Field → Text
  | .macAddr elem => bracketed elem (txt "macAddr") []
  | .macAddrMax elem => bracketed elem (txt "macAddr") (txt "CW_MAC_ADDR_LEN_MAX")
  | .macAddrEth elem => bracketed elem (txt "macAddr") (txt "ETH_ALEN")
  | .keyMax elem => bracketed elem (txt "key") (txt "CW_KEY_LEN_MAX")
  | .array elem value n => bracketed elem value n
  | .scalar key value => declare key (value ++ txt ";")
  | .pointer key value => declare key (txt "*" ++ (value ++ txt ";"))
  | .bitset value => declare type (value ++ (txt " : " ++ (len ++ txt ";")))

/-- The words of a field are words, and the length of an array is a number. -/
def Field.Words : Field → Prop
  | .macAddr type | .macAddrMax type | .macAddrEth type | .keyMax type => IsWord type
  | .array type value len => IsWord type ∧ IsWord value ∧ IsNumber len
  | .scalar key value | .pointer key value => IsWord key ∧ IsWord value
  | .bitset value => IsWord value

section
variable {type name body s : Text} {items : Items} {groups : List Text}

theorem declare_lacks {c : Char} (htype : IsWord type) (hc : isWord c = false)
    (hspace : Lacks c (txt "    ") ∧ Lacks c (txt " ")) (hs : Lacks c s) :
    Lacks c (declare type s) :=
  hspace.1.append ((htype.lacks hc).append (hspace.2.append hs))

/-- A declaration is matched up to its rest. -/
theorem find_declare (htype : IsWord type) (hs : Stops isSpace s)
    (h : matchHere items s = some groups) :
    find (.plus isSpace :: .group isWord :: .plus isSpace :: items) (declare type s)
      = some (type :: groups) := by
  have hblank : Stops isWord (txt " " ++ s) := by
    rintro _ ⟨⟩
    decide
  exact find_of_matchHere (matchHere_plus (by decide) (by decide) (htype.stops _)
    (matchHere_group htype.1 htype.2 hblank (matchHere_plus (by decide) (by decide) hs h)))

/-- A pattern that wants the text `b` between the brackets finds nothing in a line that has another
there.  A match would have its brackets where the line has the only ones. -/
theorem find_literal_none {pre : Items} {before name' b : Text} (hbefore : '[' ∉ before)
    (hbody : '[' ∉ body) (hbody' : ']' ∉ body) (hne : body ≠ b) :
    find (pre ++ exactly (name' ++ '[' :: (b ++ txt "];"))) (before ++ '[' :: (body ++ txt "];"))
      = none := by
  cases hf : find (pre ++ exactly (name' ++ '[' :: (b ++ txt "];")))
      (before ++ '[' :: (body ++ txt "];")) with
  | none => rfl
  | some groups =>
    obtain ⟨a, u, v, hline, hm⟩ := find_sound hf
    obtain ⟨p, t, _, _, rfl, -, -, ht⟩ := hm.append
    obtain rfl := ht.exactly
    refine absurd (bracket_body (a := a ++ p ++ name') hbefore hbody hbody' (v := v) ?_) hne
    rw [hline]
    simp [List.append_assoc]

/-- Where there is no number between the brackets, the pattern with `\d+` finds nothing, by the
same argument. -/
theorem find_array_none {before : Text} (hbefore : '[' ∉ before) (hbody : '[' ∉ body)
    (hbody' : ']' ∉ body) (hnumber : ¬ IsNumber body) :
    find arrayLine (before ++ '[' :: (body ++ txt "];")) = none := by
  cases hf : find arrayLine (before ++ '[' :: (body ++ txt "];")) with
  | none => rfl
  | some groups =>
    obtain ⟨a, u, v, hline, hm⟩ := find_sound hf
    have hm : Pattern.Matches ((space ++ word ++ space ++ word) ++ (lit "[" ++
      (Piece.group Char.isDigit :: lit "];"))) u groups := hm
    obtain ⟨p, _, _, _, rfl, -, -, hbracket⟩ := hm.append
    obtain ⟨o, _, _, _, rfl, -, hopen, hrest⟩ := hbracket.append
    obtain rfl := hopen.exactly
    obtain ⟨n, t, _, rfl, -, hne, hn, hclose⟩ := hrest.of_group
    obtain rfl := hclose.exactly
    have heq : body = n := by
      refine bracket_body (a := a ++ p) hbefore hbody hbody' (v := v) ?_
      rw [hline]
      simp [List.append_assoc, txt]
    exact absurd ⟨heq ▸ hne, heq ▸ hn⟩ hnumber

/-- In the line of an array, only the patterns for arrays find something.  The others want a
character that it lacks, or two words in front of the semicolon. -/
theorem found_bracketed (htype : IsWord type) (hname : IsWord name)
    (hbody : ∀ c ∈ body, isWord c = true) :
    found (bracketed type name body) = foundArrays (bracketed type name body) := by
  have hlacks : ∀ c, isWord c = false → Lacks c (txt "    ") ∧ Lacks c (txt " ") →
      Lacks c (txt "[") → Lacks c (txt "];") → Lacks c (bracketed type name body) := by
    intro c hc hspace hopen hclose
    refine declare_lacks htype hc hspace ((hname.lacks hc).append ?_)
    exact hopen.append ((lacks_of_word hbody hc).append hclose)
  have hscalar : find scalarLine (bracketed type name body) = none := by
    have hline : bracketed type name body
        = declare type (name ++ (txt "[" ++ body)) ++ ']' :: ([] ++ []) ++ [';'] := by
      simp [bracketed, declare, txt, List.append_assoc]
    have hdeclare : Lacks ';' (declare type (name ++ (txt "[" ++ body))) :=
      declare_lacks htype (by decide) (by decide) ((hname.lacks (by decide)).append
        (Lacks.append (by decide) (lacks_of_word hbody (by decide))))
    have hsemi : Lacks ';' (declare type (name ++ (txt "[" ++ body)) ++ ']' :: ([] ++ [])) :=
      hdeclare.append (by decide)
    rw [hline]
    exact find_scalar_none (by decide) (by decide) (by simp) (by simp) hsemi.notMem
  rw [found_field (hlacks _ (by decide) (by decide) (by decide) (by decide))
    (hlacks _ (by decide) (by decide) (by decide) (by decide))
    (hlacks _ (by decide) (by decide) (by decide) (by decide)), hscalar,
    find_pointer_none (hlacks _ (by decide) (by decide) (by decide) (by decide)),
    find_bitset_none (hlacks _ (by decide) (by decide) (by decide) (by decide))]
  simp

theorem bracketed_eq (type name body : Text) : bracketed type name body
    = txt "    " ++ (type ++ (txt " " ++ name)) ++ '[' :: (body ++ txt "];") := by
  simp [bracketed, declare, List.append_assoc]

/-- There is one pair of brackets. -/
theorem bracket_alone (htype : IsWord type) (hname : IsWord name)
    (hbody : ∀ c ∈ body, isWord c = true) :
    '[' ∉ txt "    " ++ (type ++ (txt " " ++ name)) ∧ '[' ∉ body ∧ ']' ∉ body := by
  have hbefore : Lacks '[' (txt "    " ++ (type ++ (txt " " ++ name))) :=
    declare_lacks htype (by decide) (by decide) (hname.lacks (by decide))
  exact ⟨hbefore.notMem, (lacks_of_word hbody (by decide)).notMem,
    (lacks_of_word hbody (by decide)).notMem⟩

/-- The pattern for another text between the brackets. -/
theorem find_other_none (htype : IsWord type) (hname : IsWord name)
    (hbody : ∀ c ∈ body, isWord c = true) (pre : Items) (name' b : Text) (hne : body ≠ b) :
    find (pre ++ exactly (name' ++ '[' :: (b ++ txt "];"))) (bracketed type name body) = none := by
  obtain ⟨hbefore, hopen, hclose⟩ := bracket_alone htype hname hbody
  rw [bracketed_eq]
  exact find_literal_none hbefore hopen hclose hne

/-- Of the patterns for arrays, those find nothing that want something else between the brackets. -/
theorem bracketed_none (htype : IsWord type) (hname : IsWord name)
    (hbody : ∀ c ∈ body, isWord c = true) :
    (body ≠ [] → find macAddrLine (bracketed type name body) = none) ∧
    (body ≠ txt "CW_MAC_ADDR_LEN_MAX" →
      find macAddrMaxLine (bracketed type name body) = none) ∧
    (body ≠ txt "ETH_ALEN" → find macAddrEthLine (bracketed type name body) = none) ∧
    (body ≠ txt "CW_KEY_LEN_MAX" → find keyLine (bracketed type name body) = none) ∧
    (¬ IsNumber body → find arrayLine (bracketed type name body) = none) := by
  have hother := fun name' b hne =>
    find_other_none htype hname hbody (space ++ word ++ space) name' b hne
  refine ⟨hother (txt "macAddr") [], hother (txt "macAddr") _, hother (txt "macAddr") _,
    hother (txt "key") _, fun hnumber => ?_⟩
  obtain ⟨hbefore, hopen, hclose⟩ := bracket_alone htype hname hbody
  rw [bracketed_eq]
  exact find_array_none hbefore hopen hclose hnumber

theorem macAddr_isWord : IsWord (txt "macAddr") := ⟨by decide, by decide⟩

theorem key_isWord : IsWord (txt "key") := ⟨by decide, by decide⟩

/-- The line of an array with its length. -/
theorem found_array {n : Text} (htype : IsWord type) (hname : IsWord name) (hn : IsNumber n) :
    found (bracketed type name n) = [.field (.array type name n)] := by
  obtain ⟨hmac, hmax, heth, hkey, -⟩ := bracketed_none htype hname hn.isWord.2
  have hdigit : ∀ {b : Text} {c : Char}, c ∈ b → c.isDigit = false → n ≠ b := by
    rintro b c hc hnot rfl
    rw [hn.2 c hc] at hnot
    cases hnot
  have hopen : Stops isWord ('[' :: (n ++ txt "];")) := by
    rintro _ ⟨⟩
    decide
  have hclose : Stops Char.isDigit (txt "];") := by
    rintro _ ⟨⟩
    decide
  have hlen : matchHere (lit "[" ++ (Piece.group Char.isDigit :: lit "];")) ('[' :: (n ++ txt "];"))
      = some [n] :=
    (matchHere_exactly _ (txt "[") _).trans
      (matchHere_group hn.1 hn.2 hclose (matchHere_text (txt "];")))
  have harray : find arrayLine (bracketed type name n) = some [type, name, n] :=
    find_declare htype (hname.stops _) (matchHere_group hname.1 hname.2 hopen hlen)
  refine (found_bracketed htype hname hn.isWord.2).trans ?_
  unfold foundArrays
  rw [hmac hn.1, hmax (hdigit (c := 'C') (by decide) (by decide)),
    heth (hdigit (c := 'E') (by decide) (by decide)),
    hkey (hdigit (c := 'C') (by decide) (by decide)), harray]
  rfl

theorem found_scalar (htype : IsWord type) (hname : IsWord name) :
    found (declare type (name ++ txt ";")) = [.field (.scalar type name)] := by
  have hlacks : ∀ c, isWord c = false → Lacks c (txt "    ") ∧ Lacks c (txt " ") →
      Lacks c (txt ";") → Lacks c (declare type (name ++ txt ";")) :=
    fun c hc hspace hs => declare_lacks htype hc hspace ((hname.lacks hc).append hs)
  have hsemi : Stops isWord (txt ";") := by
    rintro _ ⟨⟩
    decide
  have hscalar : find scalarLine (declare type (name ++ txt ";")) = some [type, name] :=
    find_declare htype (hname.stops _)
      (matchHere_group hname.1 hname.2 hsemi (matchHere_text (txt ";")))
  rw [found_field (hlacks _ (by decide) (by decide) (by decide))
    (hlacks _ (by decide) (by decide) (by decide)) (hlacks _ (by decide) (by decide) (by decide)),
    foundArrays_nil (hlacks _ (by decide) (by decide) (by decide)), hscalar,
    find_pointer_none (hlacks _ (by decide) (by decide) (by decide)),
    find_bitset_none (hlacks _ (by decide) (by decide) (by decide))]
  rfl

theorem found_pointer (htype : IsWord type) (hname : IsWord name) :
    found (declare type (txt "*" ++ (name ++ txt ";"))) = [.field (.pointer type name)] := by
  have hlacks : ∀ c, isWord c = false → Lacks c (txt "    ") ∧ Lacks c (txt " ") →
      Lacks c (txt "*") → Lacks c (txt ";") →
        Lacks c (declare type (txt "*" ++ (name ++ txt ";"))) :=
    fun c hc hspace hstar hs => declare_lacks htype hc hspace
      (hstar.append ((hname.lacks hc).append hs))
  have hstar : Stops isSpace (txt "*" ++ (name ++ txt ";")) := by
    rintro _ ⟨⟩
    decide
  have hsemi : Stops isWord (txt ";") := by
    rintro _ ⟨⟩
    decide
  have hrest : matchHere (lit "*" ++ (Piece.group isWord :: lit ";")) (txt "*" ++ (name ++ txt ";"))
      = some [name] :=
    (matchHere_exactly _ (txt "*") _).trans
      (matchHere_group hname.1 hname.2 hsemi (matchHere_text (txt ";")))
  have hpointer : find pointerLine (declare type (txt "*" ++ (name ++ txt ";")))
      = some [type, name] := find_declare htype hstar hrest
  have hscalar : find scalarLine (declare type (txt "*" ++ (name ++ txt ";"))) = none := by
    have hline : declare type (txt "*" ++ (name ++ txt ";"))
        = declare type [] ++ '*' :: ([] ++ name) ++ [';'] := by
      simp [declare, txt, List.append_assoc]
    have hpre : Lacks ';' (declare type [] ++ (txt "*" ++ name)) :=
      (declare_lacks htype (by decide) (by decide) (by decide)).append
        (Lacks.append (by decide) (hname.lacks (by decide)))
    rw [hline]
    exact find_scalar_none (by decide) (by decide) (by simp) hname.2 hpre.notMem
  rw [found_field (hlacks _ (by decide) (by decide) (by decide) (by decide))
    (hlacks _ (by decide) (by decide) (by decide) (by decide))
    (hlacks _ (by decide) (by decide) (by decide) (by decide)),
    foundArrays_nil (hlacks _ (by decide) (by decide) (by decide) (by decide)), hscalar, hpointer,
    find_bitset_none (hlacks _ (by decide) (by decide) (by decide) (by decide))]
  rfl

theorem isAny_of_isWord {c : Char} (h : isWord c = true) : isAny c = true := by
  have hrange := isWord_range h
  unfold isAny
  simp only [List.mem_cons, List.not_mem_nil, or_false, Bool.not_eq_true', decide_eq_false_iff_not]
  omega

/-- The bit-field pattern does not match before the name: a word, spaces and a colon would leave no
room for what stands there. -/
theorem matchHere_bitset_none {v value rest : Text} {items : Items} (hv : Lacks ':' v)
    (hlast : ∃ v', v = v' ++ [' ']) (hvalue : IsWord value) (hrest : Lacks ':' rest) :
    matchHere (.group isWord :: .plus isSpace :: (lit ":" ++ items))
      (v ++ (value ++ (txt " : " ++ rest))) = none := by
  cases hf : matchHere (.group isWord :: .plus isSpace :: (lit ":" ++ items))
      (v ++ (value ++ (txt " : " ++ rest))) with
  | none => rfl
  | some groups =>
    obtain ⟨m, r, hline, hm⟩ := matchHere_sound hf
    obtain ⟨w, _, _, rfl, -, -, hw, hspace⟩ := hm.of_group
    obtain ⟨sp, _, rfl, -, hsp, hcolon⟩ := hspace.of_plus
    obtain ⟨colon, m, _, _, rfl, -, hcolon, -⟩ := hcolon.append
    obtain rfl := hcolon.exactly
    obtain ⟨v', rfl⟩ := hlast
    have hleft : Lacks ':' (v' ++ [' '] ++ (value ++ [' '])) :=
      hv.append ((hvalue.lacks (by decide)).append (by decide))
    have hright : Lacks ':' (' ' :: rest) := Lacks.append (s := [' ']) (by decide) hrest
    have hcut : v' ++ [' '] ++ (value ++ [' ']) = w ++ sp := by
      have heq : v' ++ [' '] ++ (value ++ [' ']) ++ ':' :: (' ' :: rest)
          = w ++ sp ++ ':' :: (m ++ r) := by
        simpa [txt, List.append_assoc] using hline
      exact ((List.append_cons_inj_of_notMem hleft.notMem hright.notMem).mp heq).1
    rcases List.append_eq_append_iff.mp hcut with ⟨as, hw', -⟩ | ⟨bs, -, hsp'⟩
    · have hblank := hw ' ' (by rw [hw']; simp)
      exact absurd hblank (by decide)
    · obtain ⟨c, hc⟩ := List.exists_mem_of_ne_nil value hvalue.1
      have hspace := hsp c (by rw [hsp']; simp [hc])
      rw [isSpace_of_isWord (hvalue.2 c hc)] at hspace
      cases hspace

/-- What follows the colon of a bit-field. -/
def bitsetRest : Items :=
  .plus isSpace :: .plus Char.isDigit :: [.one fun c => c == ',' || c == ';']

theorem matchHere_bitset {len : Text} (hname : IsWord name) (hlen : IsNumber len) :
    matchHere (.group isWord :: .plus isSpace :: (lit ":" ++ bitsetRest))
      (name ++ (txt " : " ++ (len ++ txt ";"))) = some [name] := by
  have hblank : Stops isWord (txt " : " ++ (len ++ txt ";")) := by
    rintro _ ⟨⟩
    decide
  have hcolon : Stops isSpace (txt ": " ++ (len ++ txt ";")) := by
    rintro _ ⟨⟩
    decide
  have hsemi : Stops Char.isDigit (txt ";") := by
    rintro _ ⟨⟩
    decide
  have hrest : matchHere bitsetRest (txt " " ++ (len ++ txt ";")) = some [] :=
    matchHere_plus (by decide) (by decide) (hlen.isWord.stops _)
      (matchHere_plus hlen.1 hlen.2 hsemi rfl)
  have hafter : matchHere (lit ":" ++ bitsetRest) (txt ": " ++ (len ++ txt ";")) = some [] :=
    (matchHere_exactly bitsetRest (txt ":") (txt " " ++ (len ++ txt ";"))).trans hrest
  exact matchHere_group hname.1 hname.2 hblank
    (matchHere_plus (t := txt " ") (by decide) (by decide) hcolon hafter)

/-- The first run of the bit-field pattern can go up to the name. -/
theorem isAny_before (htype : IsWord type) :
    ∀ c ∈ txt "    " ++ (type ++ txt " "), isAny c = true := by
  have hindent : ∀ c ∈ txt "    ", isAny c = true := by decide
  have hspace : ∀ c ∈ txt " ", isAny c = true := by decide
  intro c hc
  rcases List.mem_append.mp hc with hc | hc
  · exact hindent c hc
  rcases List.mem_append.mp hc with hc | hc
  · exact isAny_of_isWord (htype.2 c hc)
  · exact hspace c hc

theorem find_bitset {len : Text} (htype : IsWord type) (hname : IsWord name) (hlen : IsNumber len) :
    find bitsetLine (declare type (name ++ (txt " : " ++ (len ++ txt ";")))) = some [name] := by
  have hfirst : Lacks ':' (txt "    " ++ (type ++ txt " ")) :=
    Lacks.append (by decide) ((htype.lacks (by decide)).append (by decide))
  have hrest : Lacks ':' (len ++ txt ";") :=
    (hlen.isWord.lacks (by decide)).append (by decide)
  have hnot : ∀ u v, txt "    " ++ (type ++ txt " ") = u ++ v → v ≠ [] →
      matchHere (.group isWord :: .plus isSpace :: (lit ":" ++ bitsetRest))
        (v ++ (name ++ (txt " : " ++ (len ++ txt ";")))) = none := by
    intro u v huv hne
    have hv : Lacks ':' v := fun x hx => hfirst x (huv ▸ List.mem_append_right _ hx)
    obtain hnil | ⟨v', x, rfl⟩ := List.eq_nil_or_concat v
    · exact absurd hnil hne
    have hx : [' '] = [x] := by
      have heq : (txt "    " ++ type) ++ [' '] = (u ++ v') ++ [x] := by
        simpa [txt, List.append_assoc] using huv
      exact (List.append_inj' heq rfl).2
    rw [List.concat_eq_append] at hv ⊢
    exact matchHere_bitset_none hv ⟨v', by rw [hx]⟩ hname hrest
  have hline : declare type (name ++ (txt " : " ++ (len ++ txt ";")))
      = (txt "    " ++ (type ++ txt " ")) ++ (name ++ (txt " : " ++ (len ++ txt ";"))) := by
    simp [declare, List.append_assoc]
  rw [hline]
  exact find_of_matchHere
    (matchHere_lazy (matchHere_bitset hname hlen) (isAny_before htype) hnot)

theorem found_bitset {len : Text} (htype : IsWord type) (hname : IsWord name)
    (hlen : IsNumber len) :
    found (declare type (name ++ (txt " : " ++ (len ++ txt ";")))) = [.field (.bitset name)] := by
  have hlacks : ∀ c, isWord c = false → Lacks c (txt "    ") ∧ Lacks c (txt " ") →
      Lacks c (txt " : ") → Lacks c (txt ";") →
        Lacks c (declare type (name ++ (txt " : " ++ (len ++ txt ";")))) :=
    fun c hc hspace hcolon hs => declare_lacks htype hc hspace ((hname.lacks hc).append
      (hcolon.append ((hlen.isWord.lacks hc).append hs)))
  have hscalar : find scalarLine (declare type (name ++ (txt " : " ++ (len ++ txt ";"))))
      = none := by
    have hline : declare type (name ++ (txt " : " ++ (len ++ txt ";")))
        = declare type (name ++ txt " ") ++ ':' :: (txt " " ++ len) ++ [';'] := by
      simp [declare, txt, List.append_assoc]
    have hpre : Lacks ';' (declare type (name ++ txt " ") ++ (txt ": " ++ len)) :=
      (declare_lacks htype (by decide) (by decide)
        ((hname.lacks (by decide)).append (by decide))).append
        (Lacks.append (by decide) (hlen.isWord.lacks (by decide)))
    rw [hline]
    exact find_scalar_none (by decide) (by decide) (by decide) hlen.isWord.2 hpre.notMem
  rw [found_field (hlacks _ (by decide) (by decide) (by decide) (by decide))
    (hlacks _ (by decide) (by decide) (by decide) (by decide))
    (hlacks _ (by decide) (by decide) (by decide) (by decide)),
    foundArrays_nil (hlacks _ (by decide) (by decide) (by decide) (by decide)), hscalar,
    find_pointer_none (hlacks _ (by decide) (by decide) (by decide) (by decide)),
    find_bitset htype hname hlen]
  rfl

/-- The line of a field says that field, and nothing else.  There is a case for each kind of
field. -/
theorem found_print {len : Text} (htype : IsWord type) (hlen : IsNumber len) {f : Field}
    (hf : f.Words) : found (f.print type len) = [.field f] := by
  cases f with
  | macAddr elem =>
    have helem : IsWord elem := hf
    have hbody : ∀ c ∈ ([] : Text), isWord c = true := by simp
    have hnumber : ¬ IsNumber [] := fun h => h.1 rfl
    obtain ⟨-, hmax, heth, hkey, harray⟩ := bracketed_none helem macAddr_isWord hbody
    have hmac : find macAddrLine (bracketed elem (txt "macAddr") []) = some [elem] :=
      find_declare helem (macAddr_isWord.stops _) (matchHere_text (txt "macAddr[];"))
    refine (found_bracketed helem macAddr_isWord hbody).trans ?_
    unfold foundArrays
    rw [hmac, hmax (by decide), heth (by decide), hkey (by decide), harray hnumber]
    rfl
  | macAddrMax elem =>
    have helem : IsWord elem := hf
    have hbody : ∀ c ∈ txt "CW_MAC_ADDR_LEN_MAX", isWord c = true := by decide
    have hnumber : ¬ IsNumber (txt "CW_MAC_ADDR_LEN_MAX") := fun h => absurd h.2 (by decide)
    obtain ⟨hmac, -, heth, hkey, harray⟩ := bracketed_none helem macAddr_isWord hbody
    have hmax : find macAddrMaxLine (bracketed elem (txt "macAddr") (txt "CW_MAC_ADDR_LEN_MAX"))
        = some [elem] :=
      find_declare helem (macAddr_isWord.stops _)
        (matchHere_text (txt "macAddr[CW_MAC_ADDR_LEN_MAX];"))
    refine (found_bracketed helem macAddr_isWord hbody).trans ?_
    unfold foundArrays
    rw [hmax, hmac (by decide), heth (by decide), hkey (by decide), harray hnumber]
    rfl
  | macAddrEth elem =>
    have helem : IsWord elem := hf
    have hbody : ∀ c ∈ txt "ETH_ALEN", isWord c = true := by decide
    have hnumber : ¬ IsNumber (txt "ETH_ALEN") := fun h => absurd h.2 (by decide)
    obtain ⟨hmac, hmax, -, hkey, harray⟩ := bracketed_none helem macAddr_isWord hbody
    have heth : find macAddrEthLine (bracketed elem (txt "macAddr") (txt "ETH_ALEN"))
        = some [elem] :=
      find_declare helem (macAddr_isWord.stops _) (matchHere_text (txt "macAddr[ETH_ALEN];"))
    refine (found_bracketed helem macAddr_isWord hbody).trans ?_
    unfold foundArrays
    rw [heth, hmac (by decide), hmax (by decide), hkey (by decide), harray hnumber]
    rfl
  | keyMax elem =>
    have helem : IsWord elem := hf
    have hbody : ∀ c ∈ txt "CW_KEY_LEN_MAX", isWord c = true := by decide
    have hnumber : ¬ IsNumber (txt "CW_KEY_LEN_MAX") := fun h => absurd h.2 (by decide)
    obtain ⟨hmac, hmax, heth, -, harray⟩ := bracketed_none helem key_isWord hbody
    have hkey : find keyLine (bracketed elem (txt "key") (txt "CW_KEY_LEN_MAX")) = some [elem] :=
      find_declare helem (key_isWord.stops _) (matchHere_text (txt "key[CW_KEY_LEN_MAX];"))
    refine (found_bracketed helem key_isWord hbody).trans ?_
    unfold foundArrays
    rw [hkey, hmac (by decide), hmax (by decide), heth (by decide), harray hnumber]
    rfl
  | array elem value n => exact found_array hf.1 hf.2.1 hf.2.2
  | scalar key value => exact found_scalar hf.1 hf.2
  | pointer key value => exact found_pointer hf.1 hf.2
  | bitset value => exact found_bitset htype hf hlen

/-! ## 4. Structs and files

The first and the last line of a struct have a brace each, which no line of a field has. -/

/-- The first line of a struct. -/
def typedefText (name : Text) : Text := txt "typedef struct " ++ (name ++ txt " \x7b")

/-- The last line of a struct. -/
def endText (name : Text) : Text := txt "\x7d " ++ (name ++ txt ";")

theorem found_typedef (hname : IsWord name) : found (typedefText name) = [.typedef name] := by
  have hlacks : ∀ c, isWord c = false → Lacks c (txt "typedef struct ") → Lacks c (txt " \x7b") →
      Lacks c (typedefText name) :=
    fun c hc hstart hend => hstart.append ((hname.lacks hc).append hend)
  have hblank : Stops isWord (txt " \x7b") := by
    rintro _ ⟨⟩
    decide
  have hbrace : Stops isSpace (txt "\x7b") := by
    rintro _ ⟨⟩
    decide
  have hrest : matchHere (.group isWord :: .plus isSpace :: lit "\x7b") (name ++ txt " \x7b")
      = some [name] :=
    matchHere_group hname.1 hname.2 hblank
      (matchHere_plus (t := txt " ") (by decide) (by decide) hbrace (matchHere_text (txt "\x7b")))
  have hstruct : matchHere (lit "struct" ++ (.plus isSpace :: .group isWord :: .plus isSpace ::
      lit "\x7b")) (txt "struct " ++ (name ++ txt " \x7b")) = some [name] :=
    (matchHere_exactly _ (txt "struct") (txt " " ++ (name ++ txt " \x7b"))).trans
      (matchHere_plus (by decide) (by decide) (hname.stops _) hrest)
  have hs : Stops isSpace (txt "struct " ++ (name ++ txt " \x7b")) := by
    rintro _ ⟨⟩
    decide
  have htypedef : find typedefLine (typedefText name) = some [name] :=
    find_of_matchHere ((matchHere_exactly _ (txt "typedef")
      (txt " " ++ (txt "struct " ++ (name ++ txt " \x7b")))).trans
        (matchHere_plus (by decide) (by decide) hs hstruct))
  have hscalar : find scalarLine (typedefText name) = none :=
    find_of_absent (List.mem_append_right _ (lit_mem (c := ';') (by decide)))
      (hlacks _ (by decide) (by decide) (by decide))
  rw [found_plain (hlacks _ (by decide) (by decide) (by decide)), htypedef, hscalar,
    foundArrays_nil (hlacks _ (by decide) (by decide) (by decide)),
    find_pointer_none (hlacks _ (by decide) (by decide) (by decide)),
    find_bitset_none (hlacks _ (by decide) (by decide) (by decide)),
    find_end_none (hlacks _ (by decide) (by decide) (by decide))]
  rfl

theorem found_end (hname : IsWord name) : found (endText name) = [.finish] := by
  have hlacks : ∀ c, isWord c = false → Lacks c (txt "\x7d ") → Lacks c (txt ";") →
      Lacks c (endText name) :=
    fun c hc hstart hend => hstart.append ((hname.lacks hc).append hend)
  have hsemi : Stops isWord (txt ";") := by
    rintro _ ⟨⟩
    decide
  have hmatch : matchHere (.group isWord :: lit ";") (name ++ txt ";") = some [name] :=
    matchHere_group hname.1 hname.2 hsemi (matchHere_text (txt ";"))
  -- the run before the name cannot end before the space
  have hnot : ∀ u v, txt " " = u ++ v → v ≠ [] →
      matchHere (.group isWord :: lit ";") (v ++ (name ++ txt ";")) = none := by
    intro u v huv hne
    obtain ⟨rfl, rfl⟩ : u = [] ∧ v = [' '] := by
      rcases List.append_eq_singleton_iff.mp huv.symm with h | ⟨-, hv⟩
      · exact h
      · exact absurd hv hne
    rfl
  have hend : find endLine (endText name) = some [name] :=
    find_of_matchHere ((matchHere_exactly _ (txt "\x7d") (txt " " ++ (name ++ txt ";"))).trans
      (matchHere_lazy hmatch (by decide) hnot))
  have hscalar : find scalarLine (endText name) = none := by
    have hline : endText name = [] ++ '\x7d' :: (txt " " ++ name) ++ [';'] := by
      simp [endText, txt]
    have hpre : Lacks ';' ([] ++ '\x7d' :: (txt " " ++ name)) :=
      Lacks.append (s := txt "\x7d ") (by decide) (hname.lacks (by decide))
    rw [hline]
    exact find_scalar_none (by decide) (by decide) (by decide) hname.2 hpre.notMem
  rw [found_plain (hlacks _ (by decide) (by decide) (by decide)), hend, hscalar,
    foundArrays_nil (hlacks _ (by decide) (by decide) (by decide)),
    find_typedef_none (hlacks _ (by decide) (by decide) (by decide)),
    find_pointer_none (hlacks _ (by decide) (by decide) (by decide)),
    find_bitset_none (hlacks _ (by decide) (by decide) (by decide))]
  rfl

end

/-! ## 5. Files

A file is its lines with an LF behind each; the program cuts it at line feeds and carriage returns,
and drops lines that are empty. -/

/-- A line: it is not empty, and has no ends of lines. -/
structure IsLine (t : Text) : Prop where
  ne_nil : t ≠ []
  no_return : Lacks '\r' t
  no_newline : Lacks '\n' t

theorem cutLines_append {line : Text} (hr : Lacks '\r' line) (hn : Lacks '\n' line) (data : Text) :
    cutLines (line ++ data) = (line ++ (cutLines data).1, (cutLines data).2) := by
  induction line with
  | nil => rfl
  | cons c line ih =>
    have hcr : c ≠ '\r' := by simpa using hr c List.mem_cons_self
    have hcn : c ≠ '\n' := by simpa using hn c List.mem_cons_self
    have hrest := ih (fun x hx => hr x (List.mem_cons_of_mem _ hx))
      fun x hx => hn x (List.mem_cons_of_mem _ hx)
    rw [List.cons_append]
    simp only [cutLines, hrest]
    rw [if_neg (by simp [hcr, hcn])]
    rfl

theorem splitLines_cons {line : Text} (h : IsLine line) (data : Text) :
    splitLines (line ++ '\n' :: data) = line :: splitLines data := by
  have hcut : cutLines (line ++ '\n' :: data) = (line, splitLines data) := by
    rw [cutLines_append h.no_return h.no_newline]
    simp [cutLines, splitLines]
  unfold splitLines at hcut ⊢
  simp only [hcut, if_neg h.ne_nil]

/-- The lines of a text that is made of lines, each with an LF behind it.  The induction is on the
lines. -/
theorem splitLines_lines {lines : List Text} (h : ∀ line ∈ lines, IsLine line) :
    splitLines (lines.flatMap (· ++ ['\n'])) = lines := by
  induction lines with
  | nil => rfl
  | cons line lines ih =>
    rw [List.flatMap_cons, List.append_assoc, List.singleton_append,
      splitLines_cons (h line List.mem_cons_self),
      ih fun x hx => h x (List.mem_cons_of_mem _ hx)]

/-- What the line of a field lacks. -/
theorem Field.print_lacks {type len : Text} (htype : IsWord type) (hlen : IsNumber len) {f : Field}
    (hf : f.Words) {c : Char} (hc : isWord c = false) (hsign : Lacks c (txt "    [];*:")) :
    Lacks c (f.print type len) := by
  have hsub : ∀ {s : String}, (∀ x ∈ txt s, (txt "    [];*:").contains x = true) →
      Lacks c (txt s) := fun h x hx => hsign x (List.contains_iff_mem.mp (h x hx))
  have hdeclare : ∀ {type s : Text}, IsWord type → Lacks c s → Lacks c (declare type s) :=
    fun htype hs => declare_lacks htype hc ⟨hsub (by decide), hsub (by decide)⟩ hs
  have hsemi : Lacks c (txt ";") := hsub (by decide)
  have hbracketed : ∀ {elem name body : Text}, IsWord elem → (∀ x ∈ name, isWord x = true) →
      (∀ x ∈ body, isWord x = true) → Lacks c (bracketed elem name body) := by
    intro elem name body helem hname hbody
    exact hdeclare helem ((lacks_of_word hname hc).append (Lacks.append (s := txt "[")
      (hsub (by decide)) ((lacks_of_word hbody hc).append (hsub (by decide)))))
  cases f with
  | macAddr elem => exact hbracketed hf macAddr_isWord.2 (by simp)
  | macAddrMax elem => exact hbracketed hf macAddr_isWord.2 (by decide)
  | macAddrEth elem => exact hbracketed hf macAddr_isWord.2 (by decide)
  | keyMax elem => exact hbracketed hf key_isWord.2 (by decide)
  | array elem value n => exact hbracketed hf.1 hf.2.1.2 hf.2.2.isWord.2
  | scalar key value => exact hdeclare hf.1 ((hf.2.lacks hc).append hsemi)
  | pointer key value =>
    exact hdeclare hf.1 ((hsub (by decide)).append ((hf.2.lacks hc).append hsemi))
  | bitset value =>
    exact hdeclare htype ((IsWord.lacks hf hc).append
      ((hsub (by decide)).append ((hlen.isWord.lacks hc).append hsemi)))

theorem Field.print_isLine {type len : Text} (htype : IsWord type) (hlen : IsNumber len)
    {f : Field} (hf : f.Words) : IsLine (f.print type len) where
  ne_nil := by cases f <;> exact List.cons_ne_nil _ _
  no_return := f.print_lacks htype hlen hf (by decide) (by decide)
  no_newline := f.print_lacks htype hlen hf (by decide) (by decide)

theorem typedefText_isLine {name : Text} (hname : IsWord name) : IsLine (typedefText name) where
  ne_nil := List.cons_ne_nil _ _
  no_return := Lacks.append (by decide) ((hname.lacks (by decide)).append (by decide))
  no_newline := Lacks.append (by decide) ((hname.lacks (by decide)).append (by decide))

theorem endText_isLine {name : Text} (hname : IsWord name) : IsLine (endText name) where
  ne_nil := List.cons_ne_nil _ _
  no_return := Lacks.append (by decide) ((hname.lacks (by decide)).append (by decide))
  no_newline := Lacks.append (by decide) ((hname.lacks (by decide)).append (by decide))

/-- The words of a struct. -/
structure StructDef.Words (d : StructDef) : Prop where
  name : IsWord d.name
  fields : ∀ f ∈ d.fields, f.Words

/-- The lines of a struct. -/
def StructDef.print (type len : Text) (d : StructDef) : List Text :=
  typedefText d.name :: (d.fields.map (Field.print type len) ++ [endText d.name])

/-- A file of structs. -/
def printFile (type len : Text) (defs : List StructDef) : Text :=
  (defs.flatMap (StructDef.print type len)).flatMap (· ++ ['\n'])

section
variable {type len : Text} (htype : IsWord type) (hlen : IsNumber len)
include htype hlen

theorem StructDef.print_isLine {d : StructDef} (hd : d.Words) :
    ∀ line ∈ d.print type len, IsLine line := by
  intro line hline
  rcases List.mem_cons.mp hline with rfl | hline
  · exact typedefText_isLine hd.name
  rcases List.mem_append.mp hline with hline | hline
  · obtain ⟨f, hf, rfl⟩ := List.mem_map.mp hline
    exact Field.print_isLine htype hlen (hd.fields f hf)
  · obtain rfl := List.mem_singleton.mp hline
    exact endText_isLine hd.name

/-- The lines of a struct say that struct: its first line opens it, its last one ends it, and each
line in between says its field. -/
theorem StructDef.found_print {d : StructDef} (hd : d.Words) :
    (d.print type len).flatMap Script.found = d.found := by
  have hfields : ∀ fs : List Field, (∀ f ∈ fs, f.Words) →
      (fs.map (Field.print type len)).flatMap Script.found = fs.map .field := by
    intro fs
    induction fs with
    | nil =>
      intro _
      rfl
    | cons f fs ih =>
      intro h
      rw [List.map_cons, List.flatMap_cons, Script.found_print htype hlen (h f List.mem_cons_self),
        ih fun x hx => h x (List.mem_cons_of_mem _ hx)]
      rfl
  unfold StructDef.print StructDef.found
  rw [List.flatMap_cons, List.flatMap_append, found_typedef hd.name, hfields _ hd.fields]
  simp [found_end hd.name]

/-- A file of structs reads as those structs: what its lines say is what the lines of the structs
say, in order. -/
theorem reads_print {defs : List StructDef} (h : ∀ d ∈ defs, d.Words) :
    Reads (printFile type len defs) defs := by
  have hlines : ∀ line ∈ defs.flatMap (StructDef.print type len), IsLine line := by
    intro line hline
    obtain ⟨d, hd, hline⟩ := List.mem_flatMap.mp hline
    exact d.print_isLine htype hlen (h d hd) line hline
  unfold Reads printFile
  rw [splitLines_lines hlines, List.flatMap_assoc]
  exact List.flatMap_congr fun d hd => d.found_print htype hlen (h d hd)

/-- **From a file of structs, the generator makes the builder of each**, in their order. -/
theorem generate_print (camelize : Text → Text) {defs : List StructDef}
    (h : ∀ d ∈ defs, d.Words) (hne : defs ≠ []) :
    ∃ g, generate camelize (printFile type len defs) = some g ∧
      functionsOf g.stmts = defs.map (StructDef.stmts camelize) := by
  obtain ⟨g, hg, hstmts⟩ := generate_stmts camelize (reads_print htype hlen h) hne
  exact ⟨g, hg, by rw [hstmts, functionsOf_builders]⟩

end

/-- A struct with two arrays and a bitset. -/
def macDef : StructDef :=
  { name := txt "mac", first := .bitset (txt "flag"),
    rest := [.macAddr (txt "uint8_t"), .array (txt "char") (txt "sn") (txt "8")] }

theorem macDef_words : macDef.Words where
  name := ⟨by decide, by decide⟩
  fields := by
    intro f hf
    simp only [macDef, StructDef.fields, List.mem_cons, List.not_mem_nil, or_false] at hf
    rcases hf with rfl | rfl | rfl
    · exact ⟨by decide, by decide⟩
    · exact ⟨by decide, by decide⟩
    · exact ⟨⟨by decide, by decide⟩, ⟨by decide, by decide⟩, by decide, by decide⟩

theorem generate_print_mac :
    ∃ g, generate id (printFile (txt "uint8_t") (txt "1") [macDef]) = some g ∧
      functionsOf g.stmts = [macDef.stmts id] :=
  generate_print ⟨by decide, by decide⟩ ⟨by decide, by decide⟩ id
    (List.forall_mem_singleton.mpr macDef_words) (List.cons_ne_nil _ _)

end Capwap.Script
