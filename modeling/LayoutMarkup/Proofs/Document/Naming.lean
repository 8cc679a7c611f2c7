import LayoutMarkup.Proofs.Document.Lockstep

/-!
# Documents without errors

What the absence of errors says about the tags of a text. All that the scanner finds is in the
diagnostics of the document (`Draft.found_ofText`), so without errors the scanner has found nothing,
and an element that is not closed is an error too. Behind `<` comes a tag name then, or else the
name of an attribute in an element that has no tag and is closed by `/>`; behind `</` comes a name,
a `>` or the end of the text (`Document.balanced_parse`). Behind `<` a `>` or the end of the text
would leave an element without a tag open, since no end tag fits it.

A name is not all that the scanner lets pass, so a document without errors may have elements without
tags (`Document.nameless_parse`).
-/

namespace LayoutMarkup

/-! ## What the scanner finds -/

namespace Draft

variable {d : Draft}

/-- A token takes nothing out of the log. -/
theorem log_step (schema : Schema) (length : Nat) (d : Draft) (token : Token) :
    d.log.toList ⊆ (d.step schema length token).log.toList := by
  by_cases hkind : token.kind = .tagOpen
  · obtain ⟨d', hcarries, hopen⟩ := exists_carries_openElement schema length d token
    unfold step
    rw [hkind]
    dsimp only
    rw [hopen]
    have hnoted : d'.Carries token (d'.noteTopLevel token.span) :=
      d'.carries_noteTopLevel token.span
    exact List.Subset.trans hcarries.log hnoted.log
  · exact (carries_step schema length d hkind).log

/-- What was found with a token is in the log behind it. -/
theorem found_take (schema : Schema) (length : Nat) (d : Draft) (scanned : Scanned) :
    d.log.toList ⊆ (d.take schema length scanned).log.toList ∧
      ∀ x ∈ scanned.diagnostic, x ∈ (d.take schema length scanned).log.toList := by
  have hstep := log_step schema length
    { d with log := scanned.diagnostic.elim d.log d.log.add } scanned.token
  cases hfound : scanned.diagnostic with
  | none =>
    unfold take
    rw [hfound] at hstep ⊢
    exact ⟨hstep, fun x hx => nomatch hx⟩
  | some x =>
    unfold take
    rw [hfound] at hstep ⊢
    have hadded : (d.log.add x).toList = d.log.toList ++ [x] := Array.toList_push
    refine ⟨fun y hy => hstep ?_, fun y hy => hstep ?_⟩
    · exact hadded ▸ List.mem_append_left _ hy
    · obtain rfl := Option.some_inj.1 hy
      exact hadded ▸ List.mem_append_right _ (List.mem_singleton_self _)

/-- What was found with some tokens is in the log behind them. -/
theorem found_foldl (schema : Schema) (length : Nat) (scans : List Scanned) (d : Draft) :
    d.log.toList ⊆ (scans.foldl (take schema length) d).log.toList ∧
      ∀ scanned ∈ scans, ∀ x ∈ scanned.diagnostic,
        x ∈ (scans.foldl (take schema length) d).log.toList := by
  induction scans generalizing d with
  | nil => exact ⟨List.Subset.refl _, fun _ hmem => nomatch hmem⟩
  | cons first scans ih =>
    obtain ⟨hlog, hfound⟩ := found_take schema length d first
    obtain ⟨hlater, hfounds⟩ := ih (d.take schema length first)
    refine ⟨List.Subset.trans hlog hlater, fun scanned hmem x hx => ?_⟩
    rcases List.mem_cons.1 hmem with rfl | hmem
    · exact hlater (hfound x hx)
    · exact hfounds scanned hmem x hx

/-- All that the scanner finds in a text is in the log. -/
theorem found_ofText (schema : Schema) (rootType : Option TypeId) {text : String}
    {scanned : Scanned} (hmem : scanned ∈ tokenize text) {x : Diagnostic}
    (hx : x ∈ scanned.diagnostic) : x ∈ (ofText schema rootType text).log.toList := by
  have hfound := (found_foldl schema (Text.byteLength text.toList) (tokenize text)
    (start (Text.byteLength text.toList) rootType)).2 scanned hmem x hx
  have hfinish : Carries ⟨.endOfText, .point (Text.byteLength text.toList), ""⟩ _
      (ofText schema rootType text) := carries_finish schema _ rfl
  exact hfinish.log hfound

end Draft

namespace Document

/-- There are no errors. -/
def Clean (doc : Document) : Prop :=
  ∀ x ∈ doc.diagnostics, x.severity ≠ .error

instance (doc : Document) : Decidable doc.Clean :=
  inferInstanceAs (Decidable (∀ x ∈ doc.diagnostics, x.severity ≠ .error))

end Document

/-- The token right behind the `<` of an element is its tag, or the element has none and is closed
by `/>`, and the token is the name of an attribute. -/
def Element.NamedBy (e : Element) (t : Token) : Prop :=
  t.kind = .tagName ∧ e.tag = some t.text ∨
    t.kind = .attributeName ∧ e.tag = none ∧ e.selfClosed = true

namespace Document

/-- The tags of a text are in order. -/
structure Balanced (doc : Document) : Prop where
  /-- Behind `<` comes the name of a tag or of an attribute. -/
  opened : ∀ {a b}, [a, b] <:+: doc.tokens → a.kind = .tagOpen →
    b.kind = .tagName ∨ b.kind = .attributeName
  /-- Behind `</` comes a name, a `>` or the end of the text. -/
  endOpened : ∀ {a b}, [a, b] <:+: doc.tokens → a.kind = .endTagOpen →
    b.kind = .endTagName ∨ b.kind = .endTagClose ∨ b.kind = .endOfText
  /-- Every element but the root is closed. -/
  closed : ∀ {id e}, doc.get? id = some e → id ≠ .root → e.closed = true
  /-- Every element but the root begins at a `<`, and is named by what comes behind it. -/
  named : ∀ {id e}, doc.get? id = some e → id ≠ .root →
    ∃ a b, [a, b] <:+: doc.tokens ∧ a.kind = .tagOpen ∧ a.span.start = e.start ∧ e.NamedBy b

variable {name text : String} {schema : Schema} {rootType : Option TypeId} {id : ElementId}
  {e : Element} {a b : Token}

/-- Without errors the scanner finds nothing. -/
theorem Clean.diagnostic_eq_none (h : (parse name text schema rootType).Clean) {scanned : Scanned}
    (hmem : scanned ∈ tokenize text) (s : Scanner) (hs : scanned = s.scan) :
    scanned.diagnostic = none := by
  by_contra hne
  obtain ⟨x, hx⟩ := Option.ne_none_iff_exists'.1 hne
  have hlog := Draft.found_ofText schema rootType hmem hx
  refine h x (List.mem_append_left _ hlog) (s.grave_scan x ?_)
  rw [← hs]
  exact hx

/-- Without errors all elements but the root are closed. -/
theorem Clean.closed (h : (parse name text schema rootType).Clean)
    (he : (parse name text schema rootType).get? id = some e) (hid : id ≠ .root) :
    e.closed = true := by
  by_contra hopen
  obtain ⟨left, haccount⟩ := Draft.exists_accounted_ofText schema rootType text
  have hunclosed : (Draft.ofText schema rootType text).Unclosed id :=
    ⟨hid, e, he, Bool.eq_false_iff.2 hopen⟩
  rw [← haccount.mem_iff, List.append_nil] at hunclosed
  -- There is a remark on the element, and it is an error.
  obtain ⟨x, hx, f, -, cause, hcause, rfl⟩ := haccount.exists_remark hunclosed
  refine h _ (List.mem_append_left _ (List.mem_of_mem_filter hx)) ?_
  simp only [Element.lapses, List.mem_cons, List.not_mem_nil, or_false] at hcause
  rcases hcause with rfl | rfl | rfl <;> rfl

/-- A `<` is one character long, and the token behind it begins there. -/
theorem start_behind_tagOpen (hab : [a, b] <:+: (tokenize text).map Scanned.token)
    (ha : a.kind = .tagOpen) : b.span.start = a.span.start + 1 := by
  obtain ⟨s, -, -, rfl, rfl⟩ := Scanner.exists_scan_of_infix hab
  have hreads := s.reads_scan
  rw [ha] at hreads
  rw [s.span_scan, Scanner.span_scan, s.offset_scan, hreads]
  rfl

/-- Behind every token but the end of the text comes another one. -/
theorem exists_behind (ha : a ∈ (tokenize text).map Scanned.token) (hkind : a.kind ≠ .endOfText) :
    ∃ b, [a, b] <:+: (tokenize text).map Scanned.token := by
  obtain ⟨front, behind, htokens⟩ := List.append_of_mem ha
  cases behind with
  | nil =>
    have hlast := (Scanner.tiles_ofText text).last
    rw [htokens, List.getLast?_concat] at hlast
    obtain rfl := Option.some_inj.1 hlast
    exact absurd rfl hkind
  | cons b behind =>
    refine ⟨b, front, behind, ?_⟩
    rw [htokens, List.append_assoc]
    rfl

/-- Without errors an element without a tag is closed by `/>`: no end tag fits it. -/
theorem Clean.selfClosed (h : (parse name text schema rootType).Clean)
    (he : (parse name text schema rootType).get? id = some e) (hid : id ≠ .root)
    (htag : e.tag = none) : e.selfClosed = true := by
  by_contra hself
  obtain ⟨left, haccount⟩ := Draft.exists_accounted_ofText schema rootType text
  have hended := haccount.ended he hid (h.closed he hid) (Bool.eq_false_iff.2 hself)
  obtain ⟨tag, -, hsome, -⟩ := hended.endTag
  exact nomatch htag.symm.trans hsome

/-- Without errors an element is named by what comes right behind its `<`. -/
theorem Clean.namedBy (h : (parse name text schema rootType).Clean)
    (he : (parse name text schema rootType).get? id = some e) (hid : id ≠ .root)
    (hab : [a, b] <:+: (parse name text schema rootType).tokens) (ha : a.kind = .tagOpen)
    (hstart : a.span.start = e.start) : e.NamedBy b := by
  obtain ⟨past, s, d, hnil, hlocked, htokens, hfinish⟩ := Draft.exists_history schema
    (Draft.locked_start rootType text) fun hrest hP => hP.take hrest schema
  have hself := h.selfClosed he hid
  have he' : (d.finish schema (Text.byteLength text.toList)).get? id = some e := hfinish ▸ he
  rcases hlocked.led_finish schema _ he' hid with ⟨t, ht, hled⟩ | ⟨htag, hopen⟩
  · -- What comes behind `<` is the token that leads the element.
    have hmem : t ∈ (tokenize text).map Scanned.token := htokens ▸ List.mem_append_left _ ht
    have hstart' : t.span.start = b.span.start := by
      rw [hled.start, ← hstart, start_behind_tagOpen hab ha]
    obtain rfl : t = b := Scanner.eq_of_start_eq hmem (hab.subset (by simp)) hstart'
    have htag := hled.tag
    obtain ⟨s', -, hscan, rfl, hb⟩ := Scanner.exists_scan_of_infix hab
    have hkind := Scanner.kind_of_tagOpened (Scanner.state_after_tagOpen ha)
      (Scanner.head?_after_tagOpen ha) (h.diagnostic_eq_none hscan _ rfl)
    rw [← hb] at hkind
    rcases hkind with hkind | hkind | hkind | hkind <;> rw [hkind] at htag
    · exact .inl ⟨hkind, htag⟩
    · exact .inr ⟨hkind, htag, hself htag⟩
    · exact absurd ((hled.closed hkind).2.symm.trans (hself htag)) Bool.false_ne_true
    · -- Only the last token is the end of the text.
      have hinner := (Scanner.tiles_ofText text).inner
      rw [htokens, List.dropLast_concat] at hinner
      exact absurd hkind (hinner _ ht).2
  · exact absurd (hopen.symm.trans (hself htag)) Bool.false_ne_true

/-- For every text, schema and root type without errors, the tags are in order. -/
theorem balanced_parse (name text : String) (schema : Schema) (rootType : Option TypeId)
    (hclean : (parse name text schema rootType).Clean) :
    (parse name text schema rootType).Balanced := by
  have hstarts := starts_parse name text schema rootType
  refine ⟨fun {a b} hab ha => ?_, fun {a b} hab ha => ?_, hclean.closed, fun {id e} he hid => ?_⟩
  · -- The `<` began an element, which got the name behind it.
    have hmem : a.span.start ∈
        (parse name text schema rootType).elements.toList.tail.map Element.start := by
      rw [hstarts]
      exact List.mem_map_of_mem (List.mem_filter.2 ⟨hab.subset (by simp), by simp [ha]⟩)
    obtain ⟨e, he, hstart⟩ := List.mem_map.1 hmem
    obtain ⟨n, hn⟩ := List.getElem?_of_mem he
    rw [List.getElem?_tail, Array.getElem?_toList] at hn
    have hget : (parse name text schema rootType).get? (n + 1) = some e := hn
    exact (hclean.namedBy hget (Nat.succ_ne_zero n) hab ha hstart.symm).imp And.left And.left
  · obtain ⟨s, -, hmem, rfl, rfl⟩ := Scanner.exists_scan_of_infix hab
    exact Scanner.kind_of_endTagOpened (Scanner.state_after_endTagOpen ha)
      (hclean.diagnostic_eq_none hmem _ rfl)
  · -- The element began at a `<`, and something stands behind that.
    have hmem : e.start ∈
        ((parse name text schema rootType).tokens.filter (·.kind = .tagOpen)).map
          (·.span.start) := by
      rw [← hstarts]
      obtain ⟨n, rfl⟩ := Nat.exists_eq_succ_of_ne_zero hid
      have hget : (parse name text schema rootType).elements.toList.tail[n]? = some e := by
        rw [List.getElem?_tail, Array.getElem?_toList]
        exact he
      exact List.mem_map_of_mem (List.mem_of_getElem? hget)
    obtain ⟨a, ha, hstart⟩ := List.mem_map.1 hmem
    obtain ⟨ha, hopen⟩ := List.mem_filter.1 ha
    have hkind : a.kind = .tagOpen := of_decide_eq_true hopen
    obtain ⟨b, hab⟩ := exists_behind ha (by rw [hkind]; exact fun heq => TokenKind.noConfusion heq)
    exact ⟨a, b, hab, hkind, hstart, hclean.namedBy he hid hab hkind hstart⟩

/-- An element without a tag and an end tag without a name are no errors. -/
theorem balanced_parse_nameless :
    (parse "Main" "<a><1/></></a>" {} none).Clean ∧
      (parse "Main" "<a><1/></></a>" {} none).Balanced :=
  ⟨by decide +kernel, balanced_parse "Main" "<a><1/></></a>" {} none (by decide +kernel)⟩

/-- Without errors a `<` may be followed by something else than a tag name, a `</` by something else
than a name, and an element may be without a tag. -/
theorem nameless_parse :
    (parse "Main" "<1/></>" {} none).Clean ∧
      (∃ a b, [a, b] <:+: (parse "Main" "<1/></>" {} none).tokens ∧ a.kind = .tagOpen ∧
        b.kind ≠ .tagName) ∧
      (∃ a b, [a, b] <:+: (parse "Main" "<1/></>" {} none).tokens ∧ a.kind = .endTagOpen ∧
        b.kind ≠ .endTagName) ∧
      ((parse "Main" "<1/></>" {} none).get? 1).map Element.tag = some none := by
  have htokens : (parse "Main" "<1/></>" {} none).tokens =
      [⟨.tagOpen, ⟨0, 1⟩, "<"⟩, ⟨.attributeName, ⟨1, 2⟩, "1"⟩, ⟨.tagSelfClose, ⟨2, 4⟩, "/>"⟩,
        ⟨.endTagOpen, ⟨4, 6⟩, "</"⟩, ⟨.endTagClose, ⟨6, 7⟩, ">"⟩, ⟨.endOfText, ⟨7, 7⟩, ""⟩] := by
    decide +kernel
  rw [htokens]
  exact ⟨by decide +kernel, ⟨_, _, ⟨[], _, rfl⟩, rfl, by decide⟩,
    ⟨_, _, ⟨[_, _, _], [_], rfl⟩, rfl, by decide⟩, by decide +kernel⟩

end Document

end LayoutMarkup
