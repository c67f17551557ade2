import PolicyGates.Proofs.Decimal.Whole
import PolicyGates.Value.Canonical
/-!
# Where a written value ends

The plain text of a value closes every bracket and every quote that it opens, and has no comma outside of them.  So
a scan that counts brackets finds the end of the value in any text that goes on with a comma or a closing bracket
(`rest_render`).  The first character of a text says what kind of value it is of (`mark_of_render`), and lists that are
written alike have items that are written alike (`map_render_of_renderItems`).  Texts and counts that are written alike
are the same.
-/
namespace PolicyGates.Value

/-- What a scan is inside of. -/
inductive Inside where
  | nothing
  | quotes
  /-- Quotes, right after a backslash. -/
  | escape

/-- What is left of a text from the first comma or closing bracket that belongs to no bracket opened on the way, where
`depth` brackets are open already. -/
def rest : Inside → Nat → List Char → List Char
  | _, _, [] => []
  | .quotes, depth, c :: r =>
    if c = '"' then rest .nothing depth r
    else if c = '\\' then rest .escape depth r
    else rest .quotes depth r
  | .escape, depth, _ :: r => rest .quotes depth r
  | .nothing, 0, c :: r =>
    if c = ']' ∨ c = '}' ∨ c = ',' then c :: r
    else if c = '"' then rest .quotes 0 r
    else if c = '[' ∨ c = '{' then rest .nothing 1 r
    else rest .nothing 0 r
  | .nothing, depth + 1, c :: r =>
    if c = ']' ∨ c = '}' then rest .nothing depth r
    else if c = '"' then rest .quotes (depth + 1) r
    else if c = '[' ∨ c = '{' then rest .nothing (depth + 2) r
    else rest .nothing (depth + 1) r

/-! ## Characters -/

/-- A character that means nothing to a scan. -/
def isPlain (c : Char) : Bool := !(['[', ']', '{', '}', ',', '"'].contains c)

theorem isPlain_iff {c : Char} : isPlain c = true ↔ c ≠ '[' ∧ c ≠ ']' ∧ c ≠ '{' ∧ c ≠ '}' ∧ c ≠ ',' ∧ c ≠ '"' := by
  simp [isPlain]

theorem rest_plain {cs : List Char} (h : ∀ c ∈ cs, isPlain c = true) (depth : Nat) (r : List Char) :
    rest .nothing depth (cs ++ r) = rest .nothing depth r := by
  induction cs with
  | nil => rfl
  | cons c cs ih =>
    obtain ⟨h1, h2, h3, h4, h5, h6⟩ := isPlain_iff.1 (h c List.mem_cons_self)
    have := ih (fun c hc => h c (List.mem_cons_of_mem _ hc))
    cases depth <;> simpa [rest, h1, h2, h3, h4, h5, h6] using this

theorem rest_quote (depth : Nat) (r : List Char) : rest .nothing depth ('"' :: r) = rest .quotes depth r := by
  cases depth <;> simp [rest]

theorem rest_open (depth : Nat) {c : Char} (h : c = '[' ∨ c = '{') (r : List Char) :
    rest .nothing depth (c :: r) = rest .nothing (depth + 1) r := by
  rcases h with rfl | rfl <;> cases depth <;> simp [rest]

theorem rest_close (depth : Nat) {c : Char} (h : c = ']' ∨ c = '}') (r : List Char) :
    rest .nothing (depth + 1) (c :: r) = rest .nothing depth r := by
  simp [rest, h]

theorem rest_separator (depth : Nat) {c : Char} (h : c = ',' ∨ c = ':') (r : List Char) :
    rest .nothing (depth + 1) (c :: r) = rest .nothing (depth + 1) r := by
  rcases h with rfl | rfl <;> simp [rest]

/-! ## Numbers -/

theorem isPlain_of_isDigit {c : Char} (h : c.isDigit = true) : isPlain c = true := by
  rw [isPlain_iff]
  refine ⟨?_, ?_, ?_, ?_, ?_, ?_⟩ <;> rintro rfl <;> cases h

theorem mem_of_mem_dropZeros {ds : List Char} {c : Char} (h : c ∈ Decimal.dropZeros ds) : c ∈ ds := by
  rw [Decimal.dropZeros, List.mem_reverse] at h
  exact List.mem_reverse.1 ((List.dropWhile_sublist _).mem h)

theorem mem_place {l : Decimal.Layout} {ds : List Char} {n : Int} {c : Char} (h : c ∈ l.place ds n) :
    c ∈ ds ∨ c.isDigit = true ∨ c ∈ ['.', 'e', '-', '+'] := by
  have hzeros : ∀ {k}, c ∈ List.replicate k '0' → c.isDigit = true := fun h => List.eq_of_mem_replicate h ▸ rfl
  have hmark : ∀ {a : Char}, c = a → a ∈ ['.', 'e', '-', '+'] → c ∈ ['.', 'e', '-', '+'] := fun h ha => h ▸ ha
  unfold Decimal.Layout.place at h
  split at h
  · split at h
    · simp only [List.mem_append, List.mem_cons, List.not_mem_nil, or_false] at h
      rcases h with ((rfl | h) | h) | h
      · exact .inr (.inl rfl)
      · exact .inr (.inr (hmark h (by decide)))
      · exact .inr (.inl (hzeros h))
      · exact .inl h
    · split at h
      · exact (List.mem_append.1 h).imp id (fun h => .inl (hzeros h))
      · rcases List.mem_append.1 h with h | h
        · exact .inl (List.mem_of_mem_take h)
        · exact (List.mem_cons.1 h).elim (fun h => .inr (.inr (hmark h (by decide))))
            (fun h => .inl (List.mem_of_mem_drop h))
  · simp only [List.mem_append] at h
    rcases h with ((h | h) | h) | h
    · exact .inl (List.mem_of_mem_take h)
    · split at h
      · cases h
      · exact (List.mem_cons.1 h).elim (fun h => .inr (.inr (hmark h (by decide))))
          (fun h => .inl (List.mem_of_mem_drop h))
    · refine .inr (.inr ?_)
      split at h <;> rcases List.mem_cons.1 h with rfl | h
      · decide
      · exact hmark (List.mem_singleton.1 h) (by decide)
      · decide
      · exact hmark (List.mem_singleton.1 h) (by decide)
    · exact .inr (.inl (Nat.isDigit_of_mem_toDigits (by decide) (by decide) h))

theorem mem_chars {x : Float} (hx : Decimal.Binary.ofFloat? x ≠ none) {c : Char} (h : c ∈ Decimal.chars x) :
    c.isDigit = true ∨ c ∈ ['.', 'e', '-', '+'] := by
  unfold Decimal.chars Decimal.Layout.chars at h
  split at h
  · next hnone => exact absurd hnone hx
  · split at h
    · exact .inl (List.mem_singleton.1 h ▸ rfl)
    · next b _ _ =>
      have hbody : ∀ n, c ∈ Decimal.Layout.standard.place
          (Decimal.dropZeros (Decimal.digitsOf (Decimal.shortest b.mantissa b.exponent).digits)) n →
          c.isDigit = true ∨ c ∈ ['.', 'e', '-', '+'] := by
        intro n h
        refine (mem_place h).elim (fun h => .inl ?_) id
        exact Nat.isDigit_of_mem_toDigits (by decide) (by decide) (mem_of_mem_dropZeros h)
      dsimp only at h
      split at h
      · refine (List.mem_cons.1 h).elim (fun h => ?_) (hbody _)
        subst h
        exact .inr (by decide)
      · exact hbody _ h

theorem isPlain_chars (x : Float) : ∀ c ∈ Decimal.chars x, isPlain c = true := by
  by_cases hx : Decimal.Binary.ofFloat? x = none
  · have hinf : ∀ c ∈ '-' :: Decimal.Layout.standard.infinite.toList, isPlain c = true := List.all_eq_true.1 rfl
    unfold Decimal.chars Decimal.Layout.chars
    rw [hx]
    dsimp only
    split
    · exact List.all_eq_true.1 rfl
    · split
      · exact hinf
      · exact fun c hc => hinf c (List.mem_cons_of_mem _ hc)
  · have hmarks : ∀ c ∈ ['.', 'e', '-', '+'], isPlain c = true := List.all_eq_true.1 rfl
    exact fun c hc => (mem_chars hx hc).elim isPlain_of_isDigit (hmarks c)

/-! ## Quotes -/

theorem rest_quotes_of_ne {c : Char} (hq : c ≠ '"') (hb : c ≠ '\\') (depth : Nat) (r : List Char) :
    rest .quotes depth (c :: r) = rest .quotes depth r := by
  rw [rest, if_neg hq, if_neg hb]

theorem rest_escape (c : Char) (depth : Nat) (r : List Char) :
    rest .quotes depth ('\\' :: c :: r) = rest .quotes depth r := rfl

theorem hexDigit_ne {n : Nat} (h : n < 16) : Text.Quoted.hexDigit n ≠ '"' ∧ Text.Quoted.hexDigit n ≠ '\\' := by
  revert h; revert n; decide

theorem rest_hexDigit {n : Nat} (h : n < 16) (depth : Nat) (r : List Char) :
    rest .quotes depth (Text.Quoted.hexDigit n :: r) = rest .quotes depth r :=
  rest_quotes_of_ne (hexDigit_ne h).1 (hexDigit_ne h).2 depth r

theorem rest_encodeChar (c : Char) (depth : Nat) (r : List Char) :
    rest .quotes depth (Text.Quoted.encodeChar c ++ r) = rest .quotes depth r := by
  unfold Text.Quoted.encodeChar
  iterate 7
    split
    · rfl
  split
  · next h =>
    show rest .quotes depth (Text.Quoted.hexDigit (c.toNat / 16) :: Text.Quoted.hexDigit (c.toNat % 16) :: r) = _
    rw [rest_hexDigit (by omega), rest_hexDigit (by omega)]
  · next hq hb _ _ _ _ _ _ => exact rest_quotes_of_ne hq hb depth r

theorem rest_encodeChars (cs : List Char) (depth : Nat) (r : List Char) :
    rest .quotes depth (cs.flatMap Text.Quoted.encodeChar ++ r) = rest .quotes depth r := by
  induction cs with
  | nil => rfl
  | cons c cs ih => rw [List.flatMap_cons, List.append_assoc, rest_encodeChar, ih]

theorem rest_encodeUnit {u : Nat} (h : u < 0x10000) (depth : Nat) (r : List Char) :
    rest .quotes depth (Text.Quoted.encodeUnit u ++ r) = rest .quotes depth r := by
  unfold Text.Quoted.encodeUnit
  split
  · simp only [Text.Quoted.encodeSurrogate, List.cons_append, List.nil_append]
    rw [rest_escape, rest_hexDigit (by omega), rest_hexDigit (by omega), rest_hexDigit (by omega),
      rest_hexDigit (by omega)]
  · exact rest_encodeChar _ depth r

theorem rest_charOfPair {u v : Nat} (h : Text.isPair u v = true) (depth : Nat) (r : List Char) :
    rest .quotes depth (Text.charOfPair u v :: r) = rest .quotes depth r := by
  have hne : ∀ c : Char, c.toNat < 0x10000 → Text.charOfPair u v ≠ c := by
    rintro c hc rfl
    have hu := Text.unitsOf_charOfPair h
    simp [Text.unitsOf, hc] at hu
  exact rest_quotes_of_ne (hne _ (by decide)) (hne _ (by decide)) depth r

theorem rest_encodeUnits (us : List Nat) (h : ∀ u ∈ us, u < 0x10000) (depth : Nat) (r : List Char) :
    rest .quotes depth (Text.Quoted.encodeUnits us ++ r) = rest .quotes depth r := by
  fun_induction Text.Quoted.encodeUnits us with
  | case1 => rfl
  | case2 u => exact rest_encodeUnit (h u List.mem_cons_self) depth r
  | case3 u v us hp ih =>
    rw [List.cons_append, rest_charOfPair hp, ih (fun w hw => h w (by simp [hw]))]
  | case4 u v us _ ih =>
    rw [List.append_assoc, rest_encodeUnit (h u List.mem_cons_self), ih (fun w hw => h w (List.mem_cons_of_mem _ hw))]

theorem rest_encode (t : Text) (depth : Nat) (r : List Char) :
    rest .nothing depth (Text.Quoted.encode t ++ r) = rest .nothing depth r := by
  have hbody : rest .quotes depth (Text.Quoted.body t ++ '"' :: r) = rest .quotes depth ('"' :: r) := by
    cases t with
    | whole s => exact rest_encodeChars _ depth _
    | broken us hb =>
      refine rest_encodeUnits us (fun u hu => ?_) depth _
      exact Text.lt_of_mem_units (t := .broken us hb) hu
  rw [Text.Quoted.encode, List.cons_append, List.append_assoc, rest_quote]
  exact hbody

/-! ## Values -/

mutual

/-- **A scan passes over a written value.** -/
theorem rest_render (depth : Nat) (r : List Char) :
    ∀ v : Value, rest .nothing depth (render v ++ r) = rest .nothing depth r
  | .absent => rest_plain (List.all_eq_true.1 rfl) depth r
  | .null => rest_plain (List.all_eq_true.1 rfl) depth r
  | .bool true => rest_plain (List.all_eq_true.1 rfl) depth r
  | .bool false => rest_plain (List.all_eq_true.1 rfl) depth r
  | .num x => rest_plain (isPlain_chars x) depth r
  | .str s => rest_encode s depth r
  | .arr vs => by
    rw [render, List.cons_append, rest_open depth (.inl rfl), rest_renderItems depth r vs]
  | .obj ms => by
    rw [render, List.cons_append, rest_open depth (.inr rfl), rest_renderMembers depth r ms]

theorem rest_renderItems (depth : Nat) (r : List Char) :
    ∀ vs : List Value, rest .nothing (depth + 1) (renderItems vs ++ r) = rest .nothing depth r
  | [] => rest_close depth (.inl rfl) r
  | [v] => by
    rw [renderItems, List.append_assoc, rest_render (depth + 1) _ v]
    exact rest_close depth (.inl rfl) r
  | v :: w :: vs => by
    rw [renderItems, List.append_assoc, rest_render (depth + 1) _ v, List.cons_append, rest_separator depth (.inl rfl),
      rest_renderItems depth r (w :: vs)]

theorem rest_renderMembers (depth : Nat) (r : List Char) :
    ∀ ms : List (Text × Value), rest .nothing (depth + 1) (renderMembers ms ++ r) = rest .nothing depth r
  | [] => rest_close depth (.inr rfl) r
  | [(k, v)] => by
    rw [renderMembers, List.append_assoc, List.append_assoc, rest_encode, List.cons_append,
      rest_separator depth (.inr rfl), rest_render (depth + 1) _ v]
    exact rest_close depth (.inr rfl) r
  | (k, v) :: m :: ms => by
    rw [renderMembers, List.append_assoc, List.append_assoc, rest_encode, List.cons_append,
      rest_separator depth (.inr rfl), rest_render (depth + 1) _ v, List.cons_append, rest_separator depth (.inl rfl),
      rest_renderMembers depth r (m :: ms)]

end

theorem render_append_inj {v w : Value} {r s : List Char} (hr : rest .nothing 0 r = r) (hs : rest .nothing 0 s = s)
    (h : render v ++ r = render w ++ s) : render v = render w ∧ r = s := by
  have hrest : r = s := by
    rw [← hr, ← hs, ← rest_render 0 r v, ← rest_render 0 s w, h]
  subst hrest
  exact ⟨List.append_cancel_right h, rfl⟩

/-! ## First characters -/

/-- What kind of value a text is of, by its first character. -/
def markOf (c : Char) : Char :=
  if c.isDigit ∨ c ∈ ['.', 'e', '-', '+', 'N', 'I'] then '0' else if c = 'f' then 't' else c

def mark : Value → Char
  | .absent => 'n'
  | .null => 'n'
  | .bool _ => 't'
  | .num _ => '0'
  | .str _ => '"'
  | .arr _ => '['
  | .obj _ => '{'

theorem place_ne_nil (l : Decimal.Layout) (ds : List Char) (n : Int) : l.place ds n ≠ [] := by
  unfold Decimal.Layout.place
  split
  · split
    · simp
    · split
      · next hpos hlen =>
        intro h
        have := congrArg List.length h
        simp only [List.length_append, List.length_replicate, List.length_nil] at this
        omega
      · simp
  · simp

theorem chars_ne_nil (x : Float) : Decimal.chars x ≠ [] := by
  unfold Decimal.chars Decimal.Layout.chars
  split
  · split
    · simp [Decimal.Layout.standard]
    · split <;> simp [Decimal.Layout.standard]
  · split
    · simp
    · dsimp only
      split
      · simp
      · exact place_ne_nil _ _ _

theorem markOf_chars (x : Float) : ∃ c r, Decimal.chars x = c :: r ∧ markOf c = '0' := by
  by_cases hx : Decimal.Binary.ofFloat? x = none
  · unfold Decimal.chars Decimal.Layout.chars
    rw [hx]
    dsimp only
    split
    · exact ⟨_, _, rfl, rfl⟩
    · split <;> exact ⟨_, _, rfl, rfl⟩
  · obtain ⟨c, r, h⟩ := List.exists_cons_of_ne_nil (chars_ne_nil x)
    refine ⟨c, r, h, if_pos ((mem_chars hx (h ▸ List.mem_cons_self)).imp id fun hc => ?_)⟩
    exact List.mem_append_left ['N', 'I'] hc

theorem markOf_render (v : Value) : ∃ c r, render v = c :: r ∧ markOf c = mark v := by
  cases v
  case bool b => cases b <;> exact ⟨_, _, rfl, rfl⟩
  case num x => exact markOf_chars x
  all_goals exact ⟨_, _, rfl, rfl⟩

theorem mark_of_render {v w : Value} (h : render v = render w) : mark v = mark w := by
  obtain ⟨c, r, hc, hm⟩ := markOf_render v
  obtain ⟨c', r', hc', hm'⟩ := markOf_render w
  rw [← hm, ← hm', (List.cons.inj (hc.symm.trans (h.trans hc'))).1]

theorem render_append_ne (v : Value) (r s : List Char) : render v ++ r ≠ ']' :: s := by
  obtain ⟨c, t, hc, hm⟩ := markOf_render v
  intro h
  rw [hc] at h
  obtain rfl : c = ']' := (List.cons.inj h).1
  cases v <;> cases hm

/-! ## Items and members -/

/-- What is written after an item, where `vs` are those to come. -/
def afterItem : List Value → List Char
  | [] => [']']
  | v :: vs => ',' :: renderItems (v :: vs)

/-- What is written after a member. -/
def afterMember : List (Text × Value) → List Char
  | [] => ['}']
  | m :: ms => ',' :: renderMembers (m :: ms)

theorem renderItems_cons (v : Value) (vs : List Value) : renderItems (v :: vs) = render v ++ afterItem vs := by
  cases vs <;> rfl

theorem renderMembers_cons (k : Text) (v : Value) (ms : List (Text × Value)) :
    renderMembers ((k, v) :: ms) = Text.Quoted.encode k ++ ':' :: (render v ++ afterMember ms) := by
  cases ms <;> simp [renderMembers, afterMember]

theorem rest_afterItem (vs : List Value) : rest .nothing 0 (afterItem vs) = afterItem vs := by
  cases vs <;> rfl

theorem encode_inj {s t : Text} (h : Text.Quoted.encode s = Text.Quoted.encode t) : s = t := by
  have hs := Text.Quoted.decode_encode s []
  have ht := Text.Quoted.decode_encode t []
  rw [h, ht] at hs
  exact (Prod.mk.inj (Option.some.inj hs)).1.symm

/-- **Lists that are written alike have items that are written alike.** -/
theorem map_render_of_renderItems {vs ws : List Value} (h : renderItems vs = renderItems ws) :
    vs.map render = ws.map render := by
  induction vs generalizing ws with
  | nil =>
    cases ws with
    | nil => rfl
    | cons w ws => exact absurd h.symm (renderItems_cons w ws ▸ render_append_ne w _ _)
  | cons v vs ih =>
    cases ws with
    | nil => exact absurd h (renderItems_cons v vs ▸ render_append_ne v _ _)
    | cons w ws =>
      rw [renderItems_cons, renderItems_cons] at h
      obtain ⟨hv, hr⟩ := render_append_inj (rest_afterItem vs) (rest_afterItem ws) h
      have htail : renderItems vs = renderItems ws := by
        cases vs <;> cases ws <;> first | rfl | cases hr | exact (List.cons.inj hr).2
      rw [List.map_cons, List.map_cons, hv, ih htail]

theorem normalItems_eq_map : ∀ vs : List Value, normalItems vs = vs.map normal
  | [] => rfl
  | v :: vs => by rw [normalItems, normalItems_eq_map vs, List.map_cons]

/-- **Lists with one canonical text have items with the same canonical texts.** -/
theorem map_canonical_of_arr {vs ws : List Value} (h : (Value.arr vs).canonical = (Value.arr ws).canonical) :
    vs.map canonical = ws.map canonical := by
  have hr := String.ofList_injective h
  rw [normal, normal, render, render, normalItems_eq_map, normalItems_eq_map] at hr
  have hm := map_render_of_renderItems (List.cons.inj hr).2
  have hmap : ∀ us : List Value, us.map canonical = ((us.map normal).map render).map String.ofList := by
    intro us
    rw [List.map_map, List.map_map]
    rfl
  rw [hmap, hmap, hm]

theorem mark_normalNumber_ne (x : Float) : mark (normalNumber x) ≠ '"' := by
  unfold normalNumber
  split
  · exact (by decide : '0' ≠ '"')
  · exact (by decide : 'n' ≠ '"')

/-- **What has the canonical text of a text is that text.** -/
theorem eq_of_canonical_str {v : Value} {t : Text} (h : v.canonical = (Value.str t).canonical) : v = .str t := by
  have hr : render (normal v) = render (.str t) := String.ofList_injective h
  have hm := mark_of_render hr
  cases v with
  | str s => rw [encode_inj hr]
  | num x => exact absurd hm (mark_normalNumber_ne x)
  | _ => cases hm

theorem normal_ofCount {n : Nat} (hle : n ≤ Double.limit) : normal (ofCount n) = ofCount n := by
  have hzero : (if Float.ofNat n == 0.0 then 0.0 else Float.ofNat n) = Float.ofNat n := by
    split
    · next h0 =>
      obtain rfl : n = 0 := (Double.ofNat_beq_iff hle (n := 0) (Nat.zero_le _)).1 h0
      rfl
    · rfl
  rw [ofCount, normal, normalNumber, if_pos (Double.isFinite_ofNat hle), hzero]

theorem canonical_ofCount_inj {m n : Nat} (hm : m < 2 ^ 53) (hn : n < 2 ^ 53)
    (h : (ofCount m).canonical = (ofCount n).canonical) : m = n := by
  have hr := String.ofList_injective h
  rw [normal_ofCount hm.le, normal_ofCount hn.le] at hr
  exact Decimal.chars_ofNat_inj hm hn hr

end PolicyGates.Value
