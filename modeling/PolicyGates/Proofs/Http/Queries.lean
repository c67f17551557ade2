import PolicyGates.Http.Message
import PolicyGates.Proofs.Decimal.Leading
/-!
# Queries

Names and numbers that are put together to a query are taken apart again (`Request.Asks.pairs_eq`): letters and digits
stand for themselves, and the separators are none of them.  So a positive number that a query gives under a name is
the bound under that name as long as there is a double for it; past that, and without one, the bound is the one to
fall back on (`Request.Asks.bound_eq`, `Request.Asks.bound_of_none`).
-/
namespace PolicyGates

namespace Text

/-! ## Pieces -/

section Pieces

variable {sep : Char} {cs r : List Char}

theorem pieces_of_notMem (h : sep ∉ cs) : pieces sep cs = [cs] := by
  induction cs with
  | nil => rfl
  | cons c cs ih =>
    rw [List.mem_cons, not_or] at h
    rw [pieces, if_neg (Ne.symm h.1), ih h.2]

theorem pieces_append (h : sep ∉ cs) : pieces sep (cs ++ sep :: r) = cs :: pieces sep r := by
  induction cs with
  | nil => rw [List.nil_append, pieces, if_pos rfl]
  | cons c cs ih =>
    rw [List.mem_cons, not_or] at h
    rw [List.cons_append, pieces, if_neg (Ne.symm h.1), ih h.2]

/-- **What was put together with separators is taken apart again.** -/
theorem pieces_intercalate {ps : List (List Char)} (hne : ps ≠ []) (h : ∀ p ∈ ps, sep ∉ p) :
    pieces sep (List.intercalate [sep] ps) = ps := by
  induction ps with
  | nil => exact absurd rfl hne
  | cons p ps ih =>
    rw [List.forall_mem_cons] at h
    cases ps with
    | nil => simpa using pieces_of_notMem h.1
    | cons q qs =>
      rw [List.intercalate_cons_cons, List.append_assoc, List.singleton_append, pieces_append h.1,
        ih (List.cons_ne_nil q qs) h.2]

theorem cutAt_append (h : sep ∉ cs) : cutAt sep (cs ++ sep :: r) = (cs, r) := by
  have hall : ∀ c ∈ cs, decide (c ≠ sep) = true := fun c hc => decide_eq_true (fun heq => h (heq ▸ hc))
  rw [cutAt, List.takeWhile_append_of_pos hall, List.dropWhile_append_of_pos hall, List.takeWhile_cons_of_neg (by simp),
    List.dropWhile_cons_of_neg (by simp), List.append_nil, List.drop_one, List.tail_cons]

end Pieces

namespace Percent

theorem toList_loop (b : ByteArray) (i : Nat) (r : List UInt8) :
    ByteArray.toList.loop b i r = r.reverse ++ b.data.toList.drop i := by
  fun_induction ByteArray.toList.loop b i r with
  | case1 i r h ih =>
    have hlt : i < b.data.toList.length := h
    have hget : b.get! i = b.data.toList[i] := getElem!_pos b.data i h
    rw [ih, List.reverse_cons, List.append_assoc, List.singleton_append, List.drop_eq_getElem_cons hlt, hget]
  | case2 i r h =>
    have hle : b.data.toList.length ≤ i := Nat.not_lt.1 h
    rw [List.drop_eq_nil_of_le hle, List.append_nil]

theorem toList_toUTF8_singleton (c : Char) : (String.singleton c).toUTF8.toList = String.utf8EncodeChar c := by
  rw [ByteArray.toList, toList_loop, List.drop_zero, List.reverse_nil, List.nil_append]
  show (String.singleton c).toByteArray.data.toList = _
  rw [String.toByteArray_singleton, List.utf8Encode_singleton, List.toList_data_toByteArray]

theorem bytes?_of_notMem {cs : List Char} (h : '%' ∉ cs) : bytes? cs = some (cs.flatMap String.utf8EncodeChar) := by
  induction cs with
  | nil => rfl
  | cons c cs ih =>
    rw [List.mem_cons, not_or] at h
    unfold bytes?
    split
    · next heq => cases heq
    · next heq => exact absurd (List.cons.inj heq).1.symm h.1
    · next heq =>
      obtain ⟨rfl, rfl⟩ := List.cons.inj heq
      rw [if_neg (Ne.symm h.1), ih h.2, Option.map_some, toList_toUTF8_singleton, List.flatMap_cons]

/-- **A text without percent signs stands for itself.** -/
theorem decode?_of_notMem {cs : List Char} (h : '%' ∉ cs) : decode? cs = some (String.ofList cs) := by
  have hbytes : (⟨(cs.flatMap String.utf8EncodeChar).toArray⟩ : ByteArray) = cs.utf8Encode := by
    exact ByteArray.ext List.data_toByteArray.symm
  rw [decode?, bytes?_of_notMem h, Option.bind_some, hbytes]
  unfold String.fromUTF8?
  rw [dif_pos (.intro cs rfl)]
  rfl

end Percent
end Text

namespace Http

open Double (firstInfinite)

/-- The text consists of letters and digits. -/
def IsPlain (s : String) : Prop := ∀ c ∈ s.toList, c.isAlphanum = true

/-- A number under a name. -/
def parameter (p : String × Nat) : String := p.1 ++ "=" ++ toString p.2

def queryOf (parameters : List (String × Nat)) : String := "&".intercalate (parameters.map parameter)

/-- Gets what is at a path, with a body that can be read. -/
structure Request.Asks (r : Request) (path : String) (parameters : List (String × Nat)) : Prop where
  method : r.method = "GET"
  target : r.target = path ++ "?" ++ queryOf parameters
  document : ∃ document, r.document = .ok document

/-! ## Plain texts -/

section Plain

variable {s : String} (h : IsPlain s)
include h

theorem IsPlain.notMem {c : Char} (hc : c.isAlphanum = false) : c ∉ s.toList := fun hmem => by
  rw [h c hmem] at hc
  cases hc

theorem IsPlain.decodeQuery_eq : decodeQuery s.toList = s := by
  have hmap : s.toList.map (fun c => if c = '+' then ' ' else c) = s.toList := by
    rw [List.map_congr_left fun c hc => if_neg (ne_of_mem_of_not_mem hc (h.notMem rfl)), List.map_id']
  unfold decodeQuery
  dsimp only
  rw [hmap, Text.Percent.decode?_of_notMem (h.notMem rfl), String.ofList_toList]
  rfl

theorem IsPlain.rootOf_eq : rootOf s.toList = s.toList := by
  have hbracket := h.notMem (c := '[') rfl
  generalize s.toList = cs at hbracket
  induction cs with
  | nil => rfl
  | cons c cs ih =>
    rw [List.mem_cons, not_or] at hbracket
    rw [rootOf, if_neg fun hc => hbracket.1 hc.1.symm, ih hbracket.2]

end Plain

theorem isPlain_toString (n : Nat) : IsPlain (toString n) := fun c hc => by
  rw [show (toString n).toList = Decimal.digitsOf n from Nat.toList_repr] at hc
  rw [Char.isAlphanum, Decimal.isDigit_digitsOf hc, Bool.or_true]

theorem toList_parameter (p : String × Nat) : (parameter p).toList = p.1.toList ++ '=' :: (toString p.2).toList := by
  rw [parameter, String.toList_append, String.toList_append, List.append_assoc]
  rfl

/-- Of pairs with different names, those that go under a name are the one with that name. -/
theorem filter_rootOf {parameters : List (String × Nat)} (hnames : ∀ p ∈ parameters, IsPlain p.1)
    (hdistinct : (parameters.map Prod.fst).Nodup) (name : String) :
    (parameters.map (fun p => (p.1, toString p.2))).filter (fun p => rootOf p.1.toList == name.toList)
      = ((parameters.lookup name).map (fun n => (name, toString n))).toList := by
  induction parameters with
  | nil => rfl
  | cons p ps ih =>
    obtain ⟨key, n⟩ := p
    rw [List.forall_mem_cons] at hnames
    rw [List.map_cons, List.nodup_cons] at hdistinct
    rw [List.map_cons, List.filter_cons, ih hnames.2 hdistinct.2, hnames.1.rootOf_eq, List.lookup_cons]
    by_cases hkey : name = key
    · subst hkey
      have hnone : ps.lookup name = none := by
        rw [List.lookup_eq_none_iff]
        intro p hp
        exact bne_iff_ne.2 fun heq => hdistinct.1 (List.mem_map.2 ⟨p, hp, heq.symm⟩)
      simp [hnone]
    · have hne : ¬key.toList = name.toList := fun heq => hkey (String.toList_inj.1 heq).symm
      simp [beq_eq_false_iff_ne.2 hkey, hne]

namespace Request.Asks

variable {r : Request} {path : String} {parameters : List (String × Nat)} (h : r.Asks path parameters)
  (hpath : '?' ∉ path.toList)
include h hpath

theorem target_cut : Text.cutAt '?' r.target.toList = (path.toList, (queryOf parameters).toList) := by
  rw [h.target, String.toList_append, String.toList_append, List.append_assoc]
  exact Text.cutAt_append hpath

theorem path_eq : r.path = path.toList := congrArg Prod.fst (h.target_cut hpath)

variable (hnames : ∀ p ∈ parameters, IsPlain p.1)
include hnames

/-- **A query of numbers under plain names is read as it was put together.** -/
theorem pairs_eq : r.pairs = parameters.map (fun p => (p.1, toString p.2)) := by
  have hquery : (queryOf parameters).toList
    = List.intercalate ['&'] (parameters.map fun p => (parameter p).toList) := by
    rw [queryOf, String.toList_intercalate, List.map_map]
    rfl
  have hand : ∀ x ∈ parameters.map (fun p => (parameter p).toList), '&' ∉ x := by
    intro x hx
    obtain ⟨p, hp, rfl⟩ := List.mem_map.1 hx
    rw [toList_parameter, List.mem_append, List.mem_cons, not_or, not_or]
    exact ⟨(hnames p hp).notMem rfl, by decide, (isPlain_toString p.2).notMem rfl⟩
  have hpieces : (Text.pieces '&' (queryOf parameters).toList).filter (· ≠ [])
    = parameters.map (fun p => (parameter p).toList) := by
    rw [hquery]
    cases parameters with
    | nil => rfl
    | cons p ps =>
      rw [Text.pieces_intercalate (by simp) hand, List.filter_eq_self]
      intro x hx
      obtain ⟨p, -, rfl⟩ := List.mem_map.1 hx
      simp [toList_parameter]
  unfold pairs
  rw [h.target_cut hpath]
  dsimp only
  rw [hpieces, List.map_map]
  refine List.map_congr_left fun p hp => ?_
  rw [Function.comp_apply, toList_parameter, Text.cutAt_append ((hnames p hp).notMem rfl), (hnames p hp).decodeQuery_eq,
    (isPlain_toString p.2).decodeQuery_eq]

variable (hdistinct : (parameters.map Prod.fst).Nodup) {name : String}
include hdistinct

/-- **A number is found under its name.** -/
theorem query?_eq : r.query? name = (parameters.lookup name).map toString := by
  unfold query?
  rw [h.pairs_eq hpath hnames, filter_rootOf hnames hdistinct]
  cases parameters.lookup name with
  | none => rfl
  | some n => simp

/-- **A positive number is a bound as long as there is a double for it.** -/
theorem bound_eq {n : Nat} (hn : parameters.lookup name = some n) (hpos : 0 < n) (fallback : Value) :
    r.bound name fallback = if n < firstInfinite then .num (Float.ofNat n) else fallback := by
  have hread : (r.query? name).bind Decimal.leadingCount? = some (Float.ofNat n) := by
    rw [h.query?_eq hpath hnames hdistinct, hn, Option.map_some, Option.bind_some, Decimal.leadingCount?_toString hpos]
  have h0 : (0.0 : Float) < Float.ofNat n := by
    rw [Double.lt_iff (by decide) (Double.isNaN_ofNat n), (Double.level_ofNat n).2]
    exact Double.rounded_pos (Int.natCast_pos.2 (Double.wholeLevel_pos hpos))
  unfold bound
  rw [hread]
  simp only [h0, and_true, Double.isFinite_ofNat_iff]

theorem bound_of_none (hn : parameters.lookup name = none) (fallback : Value) : r.bound name fallback = fallback := by
  unfold bound
  rw [h.query?_eq hpath hnames hdistinct, hn]
  rfl

end Request.Asks
theorem Request.routing_audit {r : Request} (hpath : r.path = "/audit".toList) (hmethod : r.method = "GET") :
    r.routing = .found .audit := by
  unfold routing
  rw [hpath, hmethod]
  decide +kernel

end Http
end PolicyGates
