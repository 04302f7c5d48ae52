import TemplateExpr.Proofs.Json.Number
import TemplateExpr.Proofs.Json.Strings

/-!
# Documents come back from their texts

What is written for a document does not depend on what was written before it, and reading takes it up to its end, where
fuel for two steps a character is enough (`IsText`). This holds of every part of a document (`Exact.exists_isText`), so
that a whole document is read from its text (`Exact.read?_text`).
-/

namespace TemplateExpr.Json

open Float.Model.UnpackedFloat (Sign)

/-- What is written for a document, and read as it. -/
structure IsText (v : Json) (cs : List Char) : Prop where
  write : ∀ out, (write out v).toList = out.toList ++ cs
  head : ∃ c rest, cs = c :: rest ∧ isSpace c = false ∧ c ≠ ']'
  read : ∀ fuel rest, 2 * cs.length ≤ fuel → EndsNumber rest → readValue? (fuel + 1) (cs ++ rest) = some (v, rest)

theorem IsText.readValue? {v : Json} {cs rest : List Char} {fuel : Nat} (h : IsText v cs) (hfuel : 2 * cs.length < fuel)
    (hrest : EndsNumber rest) : readValue? fuel (cs ++ rest) = some (v, rest) := by
  obtain ⟨fuel, rfl⟩ := Nat.exists_eq_succ_of_ne_zero (Nat.ne_zero_of_lt hfuel)
  exact h.read fuel rest (Nat.le_of_lt_succ hfuel) hrest

/-! ### Words, numbers and strings -/

theorem isText_null : IsText .null "null".toList :=
  ⟨fun out => String.toList_append .., ⟨'n', _, rfl, by decide, by decide⟩, fun fuel rest _ _ => rfl⟩

theorem isText_bool (b : Bool) : IsText (.bool b) (if b then "true" else "false").toList := by
  cases b with
  | false => exact ⟨fun out => String.toList_append .., ⟨'f', _, rfl, by decide, by decide⟩, fun fuel rest _ _ => rfl⟩
  | true => exact ⟨fun out => String.toList_append .., ⟨'t', _, rfl, by decide, by decide⟩, fun fuel rest _ _ => rfl⟩

private theorem isText_signed {v : Json} {text : String} {s : Sign} {t : Decimal.NumberText}
    (htext : text.toList = Binary64.signChars s ++ t.text) (hwrite : ∀ out, write out v = out ++ text)
    (hread : number? text.toList = some v) : IsText v text.toList := by
  have hall : ∀ c ∈ text.toList, isNumberChar c = true := fun c hc => isNumberChar_of_mem_signed (htext ▸ hc)
  obtain ⟨c, cs, hcons, hc⟩ := exists_cons_signed s t
  rw [← htext] at hcons
  refine ⟨fun out => by rw [hwrite, String.toList_append], ⟨c, cs, hcons, isSpace_of_begins hc⟩,
    fun fuel rest hfuel hrest => ?_⟩
  rw [hcons] at hall hread ⊢
  exact readValue?_number hc hall hread hrest fuel

theorem isText_integer {n : Int} (h : isInteger n = true) : IsText (.integer n) (toString n).toList := by
  obtain ⟨s, k, htext, -⟩ := Binary64.toList_toString n
  obtain ⟨t, ht, -⟩ := Decimal.exists_positional ⟨k, 0⟩
  rw [← ht] at htext
  exact isText_signed htext (fun out => by rw [write]) (number?_toString h)

theorem isText_real {x : Float} (hx : x.isFinite = true) : IsText (.real x) (Binary64.listing x).toList := by
  obtain ⟨s, t, htext, -⟩ := Binary64.exists_listing hx
  exact isText_signed htext (fun out => by rw [write]) (number?_listing hx)

theorem isText_string (s : String) : IsText (.string s) (quoted s) := by
  refine ⟨fun out => by rw [write, toList_writeString], ⟨'"', _, rfl, by decide, by decide⟩,
    fun fuel rest hfuel _ => ?_⟩
  obtain ⟨cs, hcs, hread⟩ := readString?_quoted s fuel (by omega) rest
  rw [hcs, readValue?, skipSpace_cons (by decide)]
  simp [hread]

/-! ### Arrays -/

/-- The elements after the first, each after a comma, up to the closing bracket. Reading comes to a comma only after an
element, so it is said of an element and those after it. -/
private theorem exists_elements {es : List Json} (h : ∀ e ∈ es, ∃ cs, IsText e cs) :
    ∃ tail, (∀ out, (writeElements out es).toList = out.toList ++ tail) ∧
      ∀ e cs fuel done rest, IsText e cs → 2 * (cs.length + tail.length) + 2 ≤ fuel →
        readElements? fuel done (cs ++ (tail ++ ']' :: rest)) = some (array (done.reverse ++ e :: es), rest) := by
  induction es with
  | nil =>
    refine ⟨[], fun out => by rw [writeElements, List.append_nil], fun e cs fuel done rest he hfuel => ?_⟩
    obtain ⟨fuel, rfl⟩ := Nat.exists_eq_succ_of_ne_zero (Nat.ne_zero_of_lt hfuel)
    rw [List.nil_append, readElements?, he.readValue? (by omega) (endsNumber_cons (by decide) rest)]
    simp [skipSpace_cons (show isSpace ']' = false by decide)]
  | cons e' es ih =>
    obtain ⟨cs', he'⟩ := h e' List.mem_cons_self
    obtain ⟨tail, hwrite, hread⟩ := ih fun e he => h e (List.mem_cons_of_mem _ he)
    refine ⟨',' :: (cs' ++ tail), fun out => ?_, fun e cs fuel done rest he hfuel => ?_⟩
    · rw [writeElements, hwrite, he'.write, String.toList_push]
      simp
    · rw [List.length_cons, List.length_append] at hfuel
      obtain ⟨fuel, rfl⟩ := Nat.exists_eq_succ_of_ne_zero (Nat.ne_zero_of_lt hfuel)
      rw [List.cons_append, readElements?, he.readValue? (by omega) (endsNumber_cons (by decide) _)]
      have hrest := hread e' cs' fuel (e :: done) rest he' (by omega)
      simp [skipSpace_cons (show isSpace ',' = false by decide), hrest]

theorem exists_isText_array {es : List Json} (h : ∀ e ∈ es, ∃ cs, IsText e cs) : ∃ cs, IsText (.array es) cs := by
  cases es with
  | nil =>
    exact ⟨['[', ']'], fun out => String.toList_append .., ⟨'[', _, rfl, by decide, by decide⟩,
      fun fuel rest _ _ => rfl⟩
  | cons e es =>
    obtain ⟨cs, he⟩ := h e List.mem_cons_self
    obtain ⟨tail, hwrite, hread⟩ := exists_elements fun e he => h e (List.mem_cons_of_mem _ he)
    refine ⟨'[' :: (cs ++ (tail ++ [']'])), fun out => ?_, ⟨'[', _, rfl, by decide, by decide⟩,
      fun fuel rest hfuel _ => ?_⟩
    · rw [write, String.toList_push, hwrite, he.write, String.toList_push]
      simp
    · simp only [List.length_cons, List.length_append] at hfuel
      -- an array that begins with its closing bracket would be empty
      obtain ⟨c, cs', rfl, hspace, hc⟩ := he.head
      have helements := hread e (c :: cs') fuel [] rest he (by rw [List.length_cons] at hfuel ⊢; omega)
      rw [List.cons_append, readValue?, skipSpace_cons (by decide)]
      simpa [skipSpace_cons hspace, hc] using helements

/-! ### Objects -/

/-- Where the names differ, no member takes the place of another. -/
theorem membersOf_reverse {ms : List (String × Json)} (h : (ms.map Prod.fst).Nodup) : membersOf ms.reverse = ms := by
  have hkept {l : List (String × Json)} (h : (l.map Prod.fst).Nodup) : l.eraseDupsBy (fun a b => a.1 == b.1) = l := by
    induction l with
    | nil => rfl
    | cons m l ih =>
      obtain ⟨hm, hl⟩ := List.nodup_cons.1 h
      have hothers : l.filter (fun b => (b.1 == m.1) = false) = l := by
        refine List.filter_eq_self.2 fun b hb => ?_
        have hne : b.1 ≠ m.1 := fun heq => hm (heq ▸ List.mem_map_of_mem hb)
        simpa using hne
      rw [List.eraseDupsBy_cons, hothers, ih hl]
  have hreverse : (ms.reverse.map Prod.fst).Nodup := by
    rw [List.map_reverse]
    exact List.nodup_reverse.2 h
  rw [membersOf, hkept hreverse, List.reverse_reverse]

/-- The members after the first, each after a comma, up to the closing brace. -/
private theorem exists_members {ms : List (String × Json)} (h : ∀ m ∈ ms, ∃ cs, IsText m.2 cs) :
    ∃ tail, (∀ out, (writeMembers out ms).toList = out.toList ++ tail) ∧
      ∀ k v cs fuel done rest, IsText v cs → 2 * ((quoted k).length + cs.length + tail.length) + 2 ≤ fuel →
        readMembers? fuel done (quoted k ++ ':' :: (cs ++ (tail ++ '\x7d' :: rest))) =
          some (object (membersOf (((k, v) :: ms).reverse ++ done)), rest) := by
  induction ms with
  | nil =>
    refine ⟨[], fun out => by rw [writeMembers, List.append_nil], fun k v cs fuel done rest hv hfuel => ?_⟩
    obtain ⟨fuel, rfl⟩ := Nat.exists_eq_succ_of_ne_zero (Nat.ne_zero_of_lt hfuel)
    obtain ⟨name, hname, hreadName⟩ := readString?_quoted k fuel (by omega) (':' :: (cs ++ '\x7d' :: rest))
    have hreadValue : readValue? fuel (cs ++ '\x7d' :: rest) = some (v, '\x7d' :: rest) :=
      hv.readValue? (by omega) (endsNumber_cons (by decide) rest)
    rw [List.nil_append, hname, readMembers?, skipSpace_cons (by decide)]
    simp [hreadName, skipSpace_cons (show isSpace ':' = false by decide), hreadValue,
      skipSpace_cons (show isSpace '\x7d' = false by decide)]
  | cons m ms ih =>
    obtain ⟨k', v'⟩ := m
    obtain ⟨cs', hv'⟩ := h (k', v') List.mem_cons_self
    obtain ⟨tail, hwrite, hread⟩ := ih fun m hm => h m (List.mem_cons_of_mem _ hm)
    refine ⟨',' :: (quoted k' ++ ':' :: (cs' ++ tail)), fun out => ?_, fun k v cs fuel done rest hv hfuel => ?_⟩
    · rw [writeMembers, hwrite, hv'.write, String.toList_push, toList_writeString, String.toList_push]
      simp
    · simp only [List.length_cons, List.length_append] at hfuel
      obtain ⟨fuel, rfl⟩ := Nat.exists_eq_succ_of_ne_zero (Nat.ne_zero_of_lt hfuel)
      have hrest := hread k' v' cs' fuel ((k, v) :: done) rest hv' (by omega)
      rw [List.cons_append, List.append_assoc, List.cons_append, List.append_assoc]
      generalize quoted k' ++ ':' :: (cs' ++ (tail ++ '\x7d' :: rest)) = others at hrest ⊢
      obtain ⟨name, hname, hreadName⟩ := readString?_quoted k fuel (by omega) (':' :: (cs ++ ',' :: others))
      have hreadValue : readValue? fuel (cs ++ ',' :: others) = some (v, ',' :: others) :=
        hv.readValue? (by omega) (endsNumber_cons (by decide) others)
      rw [hname, readMembers?, skipSpace_cons (by decide)]
      simp [hreadName, skipSpace_cons (show isSpace ':' = false by decide), hreadValue,
        skipSpace_cons (show isSpace ',' = false by decide), hrest]

theorem exists_isText_object {ms : List (String × Json)} (hnames : (ms.map Prod.fst).Nodup)
    (h : ∀ m ∈ ms, ∃ cs, IsText m.2 cs) : ∃ cs, IsText (.object ms) cs := by
  cases ms with
  | nil =>
    exact ⟨['\x7b', '\x7d'], fun out => String.toList_append .., ⟨'\x7b', _, rfl, by decide, by decide⟩,
      fun fuel rest _ _ => rfl⟩
  | cons m ms =>
    obtain ⟨k, v⟩ := m
    obtain ⟨cs, hv⟩ := h (k, v) List.mem_cons_self
    obtain ⟨tail, hwrite, hread⟩ := exists_members fun m hm => h m (List.mem_cons_of_mem _ hm)
    refine ⟨'\x7b' :: (quoted k ++ ':' :: (cs ++ (tail ++ ['\x7d']))), fun out => ?_,
      ⟨'\x7b', _, rfl, by decide, by decide⟩, fun fuel rest hfuel _ => ?_⟩
    · rw [write, String.toList_push, hwrite, hv.write, String.toList_push, toList_writeString, String.toList_push]
      simp
    · simp only [List.length_cons, List.length_append] at hfuel
      -- the members were collected in reverse; none of them is dropped, as their names differ
      have hmembers := hread k v cs fuel [] rest hv (by omega)
      rw [List.append_nil, membersOf_reverse hnames] at hmembers
      rw [List.cons_append, readValue?, skipSpace_cons (by decide)]
      simpa [quoted, skipSpace_cons (show isSpace '"' = false by decide)] using hmembers

/-! ### Whole documents -/

theorem Exact.exists_isText {v : Json} (h : Exact v) : ∃ cs, IsText v cs := by
  induction h with
  | null => exact ⟨_, isText_null⟩
  | bool b => exact ⟨_, isText_bool b⟩
  | integer h => exact ⟨_, isText_integer h⟩
  | real h => exact ⟨_, isText_real h⟩
  | string s => exact ⟨_, isText_string s⟩
  | array _ ih => exact exists_isText_array ih
  | object hnames _ ih => exact exists_isText_object hnames ih

/-- A document is read from its text. -/
theorem Exact.read?_text {v : Json} (h : Exact v) : read? v.text = some v := by
  obtain ⟨cs, hcs⟩ := h.exists_isText
  have htext : v.text.toList = cs := by
    rw [text, hcs.write, String.toList_empty, List.nil_append]
  -- the fuel gets a name, or the reader would be unfolded as often as it says
  obtain ⟨fuel, hfuel⟩ : ∃ fuel, fuel = 2 * cs.length + 3 := ⟨_, rfl⟩
  have hread : readValue? fuel (cs ++ []) = some (v, []) := hcs.readValue? (by omega) nofun
  rw [List.append_nil] at hread
  simp only [read?, htext, ← hfuel, hread]
  rfl

end TemplateExpr.Json
