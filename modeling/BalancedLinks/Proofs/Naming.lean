import BalancedLinks.Proofs.Decimals
import BalancedLinks.Proofs.Exits

/-!
# Names of nodes

The graph language takes as a name a numeral without an exponent, a word that does not start with a digit, or a
text in quotation marks. The command names the node of a key by the key's numeral as it is written, with nothing
around it. So the names that it prints are good for the keys that are written in full, and for no others.

The main statement is `Command.printed_names`.
-/

set_option autoImplicit false

namespace BalancedLinks

/-! ## Names in the graph language -/

namespace Graphviz

/-- Whether a text is a numeral without a sign: digits, with a point among them or on one side of them. -/
def isUnsigned (text : List Char) : Bool :=
  match text.dropWhile Char.isDigit with
  | [] => !text.isEmpty
  | '.' :: fraction => fraction.all Char.isDigit && text != ['.']
  | _ => false

/-- Whether a text is a numeral, which may have a minus sign. -/
def isNumeral : List Char → Bool
  | '-' :: rest => isUnsigned rest
  | text => isUnsigned text

/-- Whether a character can start a word. -/
def isWordStart (c : Char) : Bool :=
  c.isAlpha || c == '_' || 0x80 ≤ c.toNat

/-- Whether a text is a word. -/
def isWord : List Char → Bool
  | [] => false
  | c :: rest => isWordStart c && rest.all fun c => isWordStart c || c.isDigit

/-- Whether the first quotation mark that is not escaped ends a text. -/
def closesQuotation : List Char → Bool
  | [] => false
  | ['"'] => true
  | '"' :: _ => false
  | '\\' :: _ :: rest => closesQuotation rest
  | _ :: rest => closesQuotation rest

/-- Whether a text stands in quotation marks. -/
def isQuotation : List Char → Bool
  | '"' :: rest => closesQuotation rest
  | _ => false

/-- Whether a text can name a node. -/
def isName (text : String) : Bool :=
  isNumeral text.toList || isWord text.toList || isQuotation text.toList

/-! Numerals are names also without digits on one side of the point, but not with an exponent. -/

example : isName "-.5" = true ∧ isName "1." = true ∧ isName "." = false ∧ isName "1e+21" = false := by decide

/-- One or more digits are an unsigned numeral. -/
theorem isUnsigned_digits {ds : List Char} (hne : ds ≠ []) (h : ∀ c ∈ ds, c.isDigit = true) :
    isUnsigned ds = true := by
  have hdrop : ds.dropWhile Char.isDigit = [] := List.dropWhile_eq_nil_iff.mpr h
  unfold isUnsigned
  rw [hdrop]
  simpa using hne

/-- Digits with a point and any further digits behind them are an unsigned numeral. -/
theorem isUnsigned_point {ds fs : List Char} (hne : ds ≠ []) (h : ∀ c ∈ ds, c.isDigit = true)
    (hfs : ∀ c ∈ fs, c.isDigit = true) : isUnsigned (ds ++ '.' :: fs) = true := by
  have hdrop : (ds ++ '.' :: fs).dropWhile Char.isDigit = '.' :: fs := by
    rw [List.dropWhile_append_of_pos h]
    rfl
  have hlong : ds ++ '.' :: fs ≠ ['.'] := by
    cases ds with
    | nil => exact absurd rfl hne
    | cons d ds => simp
  unfold isUnsigned
  rw [hdrop]
  simpa [hlong] using hfs

/-- All characters of a numeral are digits, or the point. -/
theorem of_isUnsigned {text : List Char} (h : isUnsigned text = true) :
    ∀ c ∈ text, c.isDigit = true ∨ c = '.' := by
  have hwhole : text.takeWhile Char.isDigit ++ text.dropWhile Char.isDigit = text := List.takeWhile_append_dropWhile
  intro c hc
  rw [← hwhole] at hc
  rcases List.mem_append.mp hc with hc | hc
  · exact Or.inl (List.mem_takeWhile_imp hc)
  · unfold isUnsigned at h
    split at h
    · rename_i hdrop
      rw [hdrop] at hc
      cases hc
    · rename_i fraction hdrop
      rw [hdrop] at hc
      rcases List.mem_cons.mp hc with rfl | hc
      · exact Or.inr rfl
      · exact Or.inl (List.all_eq_true.mp (Bool.and_eq_true_iff.mp h).1 c hc)
    · cases h

/-- No numeral has an exponent. -/
theorem isUnsigned_exponent {text : List Char} (h : 'e' ∈ text) : isUnsigned text = false := by
  apply Bool.eq_false_iff.mpr
  intro hunsigned
  rcases of_isUnsigned hunsigned 'e' h with hdigit | hpoint
  · cases hdigit
  · cases hpoint

/-- No word starts with a digit. -/
theorem isWordStart_digit {c : Char} (h : c.isDigit = true) : isWordStart c = false := by
  simp only [Char.isDigit, Bool.and_eq_true, decide_eq_true_eq, ge_iff_le, UInt32.le_iff_toNat_le] at h
  have hlow : 48 ≤ c.val.toNat := h.1
  have hhigh : c.val.toNat ≤ 57 := h.2
  have hletter : c.isAlpha = true → 65 ≤ c.val.toNat := by
    intro halpha
    rcases Bool.or_eq_true_iff.mp halpha with hupper | hlower
    · exact (of_decide_eq_true hupper).1
    · have hbound : 97 ≤ c.val.toNat := of_decide_eq_true (Bool.and_eq_true_iff.mp hlower).1
      omega
  apply Bool.eq_false_iff.mpr
  intro hstart
  simp only [isWordStart, Char.toNat, Bool.or_eq_true, decide_eq_true_eq, beq_iff_eq] at hstart
  rcases hstart with (halpha | rfl) | hhigher
  · have hbound := hletter halpha
    omega
  · exact absurd hhigh (by decide)
  · omega

/-- A text that starts with a digit, also after a minus sign, can be a name as a numeral only. -/
theorem isName_digit {c : Char} (h : c.isDigit = true) {rest : List Char} {text : String}
    (htext : text.toList = c :: rest) (negative : Bool) :
    isName ((if negative then "-" else "") ++ text) = isUnsigned text.toList := by
  have hminus : c ≠ '-' := by
    rintro rfl
    cases h
  have hquote : c ≠ '"' := by
    rintro rfl
    cases h
  cases negative with
  | true =>
    have hlist : (("-" : String) ++ text).toList = '-' :: text.toList := by simp
    have hstart : isWordStart '-' = false := by decide
    have hquotation : isQuotation ('-' :: text.toList) = false := rfl
    simp only [isName, if_true, hlist, isNumeral, isWord, hstart, hquotation, Bool.false_and, Bool.or_false]
  | false =>
    have hnumeral : isNumeral (c :: rest) = isUnsigned (c :: rest) := by
      unfold isNumeral
      split
      · rename_i heq
        exact absurd (List.cons.inj heq).1 hminus
      · rfl
    have hquotation : isQuotation (c :: rest) = false := by
      unfold isQuotation
      split
      · rename_i heq
        exact absurd (List.cons.inj heq).1 hquote
      · rfl
    have hword : isWord (c :: rest) = false := by simp only [isWord, isWordStart_digit h, Bool.false_and]
    simp only [isName, Bool.false_eq_true, if_false, String.empty_append, htext, hnumeral, hword, hquotation,
      Bool.or_false]

end Graphviz

/-! ## How numbers are laid out -/

namespace NumberStyle

open Graphviz

/-- Zeros that fill up a numeral are digits. -/
theorem isDigit_of_mem_zeros {count : Int} : ∀ c ∈ (zeros count).toList, c.isDigit = true := by
  intro c hc
  rw [zeros, String.toList_ofList] at hc
  rw [List.eq_of_mem_replicate hc]
  rfl

/-- A text that starts with digits starts with a digit. -/
theorem exists_digit_append {ds : List Char} (hne : ds ≠ []) (h : ∀ c ∈ ds, c.isDigit = true) (tail : List Char) :
    ∃ c rest, ds ++ tail = c :: rest ∧ c.isDigit = true := by
  cases ds with
  | nil => exact absurd rfl hne
  | cons d ds => exact ⟨d, ds ++ tail, rfl, h d (by simp)⟩

/-- An exponent is written with its letter. -/
theorem mem_exponentText (e : Int) : 'e' ∈ (exponentText e).toList := by
  rw [exponentText, String.toList_append]
  apply List.mem_append_left
  split_ifs
  · decide
  · decide

/--
What is laid out starts with a digit, and it is a numeral exactly if the point is where the style writes numbers in
full.
-/
theorem layOut_spec (style : NumberStyle) (hdigits : 0 ≤ style.mostIntegerDigits)
    (hzeros : 0 ≤ style.mostLeadingZeros) {ds : List Char} (hne : ds ≠ []) (h : ∀ c ∈ ds, c.isDigit = true)
    (point : Int) :
    (∃ c rest, (style.layOut ds point).toList = c :: rest ∧ c.isDigit = true) ∧
      (isUnsigned (style.layOut ds point).toList = true ↔
        -style.mostLeadingZeros ≤ point ∧ point ≤ style.mostIntegerDigits) := by
  have hlength : 0 < ds.length := List.length_pos_iff.mpr hne
  have htake : ∀ k, ∀ c ∈ ds.take k, c.isDigit = true := fun k c hc => h c (List.mem_of_mem_take hc)
  have hdrop : ∀ k, ∀ c ∈ ds.drop k, c.isDigit = true := fun k c hc => h c (List.mem_of_mem_drop hc)
  have htaken : ∀ k, 0 < k → ds.take k ≠ [] := fun k hk hnil => by
    rcases List.take_eq_nil_iff.mp hnil with rfl | hnil
    · cases hk
    · exact hne hnil
  simp only [layOut]
  generalize (if ds.length > 1 then "." ++ String.ofList (ds.drop 1) else "") = fraction
  split_ifs with hwhole hamong hsmall
  -- whole, with zeros behind the digits
  · rw [String.toList_append, String.toList_ofList]
    refine ⟨exists_digit_append hne h _, iff_of_true ?_ (by omega)⟩
    apply isUnsigned_digits (List.append_ne_nil_of_left_ne_nil hne _)
    exact List.forall_mem_append.mpr ⟨h, isDigit_of_mem_zeros⟩
  -- with the point among the digits
  · have hpoint : ("." : String).toList = ['.'] := rfl
    rw [String.toList_append, String.toList_append, hpoint, String.toList_ofList, String.toList_ofList,
      List.append_assoc, List.singleton_append]
    have hne' := htaken point.toNat (by omega)
    exact ⟨exists_digit_append hne' (htake _) _, iff_of_true (isUnsigned_point hne' (htake _) (hdrop _)) (by omega)⟩
  -- with zeros between the point and the digits
  · have hpoint : ("0." : String).toList = ['0', '.'] := rfl
    rw [String.toList_append, String.toList_append, hpoint, String.toList_ofList, List.append_assoc]
    have htail : ∀ c ∈ (zeros (-point)).toList ++ ds, c.isDigit = true :=
      List.forall_mem_append.mpr ⟨isDigit_of_mem_zeros, h⟩
    have hzero : ∀ c ∈ ['0'], c.isDigit = true := by simp
    have hnumeral := isUnsigned_point (List.cons_ne_nil '0' []) hzero htail
    exact ⟨⟨'0', _, rfl, rfl⟩, iff_of_true hnumeral (by omega)⟩
  -- with an exponent
  · rw [String.toList_append, String.toList_append, String.toList_ofList, List.append_assoc]
    refine ⟨exists_digit_append (htaken 1 one_pos) (htake 1) _, iff_of_false ?_ (by omega)⟩
    apply Bool.eq_false_iff.mp
    apply isUnsigned_exponent
    exact List.mem_append_right _ (List.mem_append_right _ (mem_exponentText _))

end NumberStyle

namespace Number

/-- Whether a number, without its sign, is zero, or at least the number nearest to 10^-6 and below 10^21. -/
def InFull (x : Number) : Prop :=
  x.units = 0 ∨ leastInFull ≤ x.units ∧ x.units < leastBeyond

/-- The numbers that are written in full are those whose text can be a name. -/
theorem isName_text_iff {x : Number} (hfinite : x.isFinite = true) (hr : Representable x.units) :
    Graphviz.isName x.text = true ↔ x.InFull := by
  cases x with
  | notANumber => cases hfinite
  | infinity negative => cases hfinite
  | finite negative u =>
    rcases Nat.eq_zero_or_pos u with rfl | hpos
    · have hname : Graphviz.isName "0" = true := by decide
      exact iff_of_true hname (Or.inl rfl)
    · have hdigits : ∀ c ∈ Nat.toDigits 10 (shortestDigits u).digits, c.isDigit = true := fun c hc =>
        Nat.isDigit_of_mem_toDigits (b := 10) (by decide) (by decide) hc
      obtain ⟨⟨c, rest, hstart, hdigit⟩, hunsigned⟩ := written.layOut_spec (by decide) (by decide)
        Nat.toDigits_ne_nil hdigits (shortestDigits u).point
      have htext : (finite negative u).text = (if negative then "-" else "") ++
          written.layOut (Nat.toDigits 10 (shortestDigits u).digits) (shortestDigits u).point := by
        simp only [text, NumberStyle.text, if_neg hpos.ne']
        rfl
      rw [htext, Graphviz.isName_digit hdigit hstart, hunsigned]
      exact (point_within_iff hpos hr).trans (or_iff_right hpos.ne').symm

end Number

namespace Command

/-- A run that exits with success has printed its text. -/
theorem printed_of_exit_ending {text : String} {log : List LogLine} {logger : Level} {result : Except PrintError Unit}
    (h : (ending text log logger result).exit = .code 0) : (ending text log logger result).printed = [text] := by
  cases result with
  | ok _ => rfl
  | error e =>
    cases e with
    | tree error => cases h
    | other name message => cases h

/--
A run that ends with 0 has printed one graph of the keys that are left. Its nodes and edges name them by their
texts, and the text of a key is good for a name exactly if the key is written in full.
-/
theorem printed_names {arguments : List String} {logger : Level} {verify : Bool}
    {print : String → Except PrintError Unit} (h : (run arguments logger verify print).exit = .code 0) :
    ∃ (request : Request) (left : List Key) (graph : Graphviz.Statements),
      readRequest arguments = .ok request ∧ Leaves request.keys request.erase left ∧
        (run arguments logger verify print).printed = [graph.render] ∧
        graph.Names (left.map fun key => key.number.text) ∧
        ∀ key ∈ left, Graphviz.isName key.number.text = true ↔ key.number.InFull := by
  cases hread : readRequest arguments with
  | error fault =>
    rw [run_of_faulty ((readRequest_eq_error_iff arguments fault).mp hread)] at h
    cases h
  | ok request =>
    obtain ⟨left, height, graph, log, hleaves, hnames, -, hrun⟩ := run_of_request hread logger verify
    rw [hrun] at h
    refine ⟨request, left, graph, rfl, hleaves, ?_, hnames, ?_⟩
    · rw [hrun]
      exact printed_of_exit_ending h
    · intro key hkey
      obtain ⟨a, -, hkeys, -⟩ := (readRequest_eq_ok_iff arguments request).mp hread
      obtain ⟨text, hreads⟩ := exists_reads hkeys (hleaves.given key hkey)
      exact Number.isName_text_iff key.finite (Number.representable_of_ofText? hreads)

/-- The graph of a half and its negative, which follows the word that ends the options. -/
theorem printed_names_halves :
    ∃ (request : Request) (left : List Key) (graph : Graphviz.Statements),
      readRequest ["0.5", "--", "-0.5"] = .ok request ∧ Leaves request.keys request.erase left ∧
        (run ["0.5", "--", "-0.5"] .info true fun _ => .ok ()).printed = [graph.render] ∧
        graph.Names (left.map fun key => key.number.text) ∧
        ∀ key ∈ left, Graphviz.isName key.number.text = true ↔ key.number.InFull :=
  printed_names (by decide +kernel)

/-- A run that ends with 0 prints a node whose name has an exponent. -/
theorem run_prints_exponent :
    (run ["1e21"] .info false fun _ => .ok ()).exit = .code 0 ∧
      (run ["1e21"] .info false fun _ => .ok ()).printed =
        [Graphviz.Statements.render ⟨[Graphviz.nodeStatement "1e+21" 0], []⟩] ∧
      Graphviz.isName "1e+21" = false := by
  refine ⟨?_, ?_, ?_⟩ <;> decide +kernel

end Command

end BalancedLinks
