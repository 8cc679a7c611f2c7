import LayoutMarkup.Proofs.Document.Geometry
import LayoutMarkup.Proofs.Document.StartTags

/-!
# Attributes and the text

The attributes of an element are those that its start tag writes (`Draft.attributed_ofText`). So
their names and values stand in the text where the spans say, inside the start tag and in the order
of the text, and the diagnostics have one remark for each attribute that is written once more
(`Document.attributed_parse`).
-/

namespace LayoutMarkup

/-- What a value token says: all of it if no quote opens it, and otherwise what stands behind that
quote and in front of a quote like that at the end, if there is one. -/
inductive Unquotes : List Char → List Char → Prop
  /-- No quote opens the value. -/
  | bare {value : List Char} : value.head?.all (!isQuote ·) → Unquotes value value
  /-- The value is closed. -/
  | closed {quote : Char} {value : List Char} : isQuote quote →
    Unquotes (quote :: value ++ [quote]) value
  /-- The value is not closed. -/
  | unclosed {quote : Char} {value : List Char} : isQuote quote → value.getLast? ≠ some quote →
    Unquotes (quote :: value) value

/-- The quotes are taken away. -/
theorem unquotes_unquote (raw : String) : Unquotes raw.toList (unquote raw).toList := by
  unfold unquote
  split
  next quote inner hraw =>
    by_cases hquote : isQuote quote = true
    · rw [if_pos hquote, String.toList_ofList, hraw]
      by_cases hlast : inner.getLast? = some quote
      · rw [if_pos (beq_iff_eq.2 hlast)]
        have hinner := List.dropLast_append_getLast? quote hlast
        have hclosed : Unquotes (quote :: inner.dropLast ++ [quote]) inner.dropLast :=
          .closed hquote
        rwa [List.cons_append, hinner] at hclosed
      · rw [if_neg (mt beq_iff_eq.1 hlast)]
        exact .unclosed hquote hlast
    · rw [if_neg hquote, hraw]
      exact .bare (by simp [hquote])
  next hraw =>
    rw [hraw]
    exact .bare rfl

/-- Where the name and the value of an attribute stand. -/
def Attribute.spans (a : Attribute) : List Span :=
  a.nameSpan :: a.valueSpan.toList

/-- An attribute is what the text says where its spans are. -/
structure Attribute.ReadIn (text : String) (a : Attribute) : Prop where
  /-- The name. -/
  name : a.nameSpan.slice? text = some a.name
  /-- The value, if there is one, stands behind the name. -/
  value : a.value = none ∧ a.valueSpan = none ∨
    ∃ value span raw, a.value = some value ∧ a.valueSpan = some span ∧
      span.slice? text = some raw ∧ Unquotes raw.toList value.toList ∧ a.nameSpan.stop ≤ span.start

/-- The attributes of an element are those of its start tag. -/
structure Element.Attributed (text : String) (tokens : List Token) (e : Element) : Prop where
  /-- The first attributes of each name are there, with the values that are assigned to them. -/
  entries : e.attributes.entries = (Written.firsts (e.written tokens)).map Written.entry
  /-- No two of them have one key. -/
  nodup : e.attributes.keys.Nodup
  /-- The key is the name in small letters. -/
  key : ∀ entry ∈ e.attributes.entries, entry.1 = Text.lower entry.2.name
  /-- They stand in the text. -/
  readIn : ∀ entry ∈ e.attributes.entries, entry.2.ReadIn text
  /-- They stand inside the start tag. -/
  inside : ∃ stop, e.startTagEnd = some stop ∧
    ∀ span ∈ e.attributes.entries.flatMap (·.2.spans), e.start ≤ span.start ∧ span.stop ≤ stop
  /-- They stand in order. -/
  ordered : (e.attributes.entries.flatMap (·.2.spans)).Pairwise fun a b => a.stop ≤ b.start

/-- The attributes of all elements are those of their start tags. -/
structure Document.Attributed (doc : Document) : Prop where
  /-- Apart from the root, the elements begin at the `<` of the text, in the same order. -/
  starts : doc.elements.toList.tail.map Element.start =
    (doc.tokens.filter (·.kind = .tagOpen)).map (·.span.start)
  /-- Each element has the attributes of its start tag. -/
  elements : ∀ {id e}, doc.get? id = some e → e.Attributed doc.text doc.tokens
  /-- There is one remark for each attribute that is written once more. -/
  repeated : Diagnostic.withCode .repeatedAttribute doc.diagnostics =
    doc.elements.toList.flatMap (Element.repeats doc.tokens)

namespace Written

/-- An attribute covers its tokens. -/
theorem spans_toAttribute (w : Written) : w.toAttribute.spans = w.tokens.map (·.span) := by
  unfold Attribute.spans toAttribute tokens
  cases w.value <;> rfl

/-- The attributes cover some of the tokens that write them, in the same order. -/
theorem spans_sublist (tokens : List Token) :
    (((firsts (ofTokens tokens)).map entry).flatMap (·.2.spans)).Sublist (tokens.map (·.span)) := by
  have hfirsts : ((firsts (ofTokens tokens)).flatMap Written.tokens).Sublist tokens :=
    ((sift_sublist [] (ofTokens tokens)).flatMap _).trans (tokens_sublist tokens).1
  have hspans : ((firsts (ofTokens tokens)).map entry).flatMap (·.2.spans) =
      ((firsts (ofTokens tokens)).flatMap Written.tokens).map (·.span) := by
    rw [List.flatMap_map, List.map_flatMap]
    exact congrArg (List.flatMap · _) (funext spans_toAttribute)
  rw [hspans]
  exact hfirsts.map _

/-- An attribute is what the text says where its tokens stand. -/
theorem readIn_toAttribute {text : String} {w : Written}
    (hslice : ∀ t ∈ w.tokens, t.span.slice? text = some t.text)
    (hordered : w.tokens.Pairwise fun a b => a.span.stop ≤ b.span.start) :
    w.toAttribute.ReadIn text := by
  obtain ⟨name, value⟩ := w
  refine ⟨hslice name List.mem_cons_self, ?_⟩
  cases value with
  | none => exact .inl ⟨rfl, rfl⟩
  | some value =>
    have hmem : value ∈ [value] := List.mem_singleton_self value
    exact .inr ⟨_, _, value.text, rfl, rfl, hslice value (List.mem_cons_of_mem name hmem),
      unquotes_unquote value.text, (List.pairwise_cons.1 hordered).1 value hmem⟩

end Written

namespace Draft

/-- At the end of the text every start tag is closed, and no token goes on behind its end. -/
theorem ended_ofText {schema : Schema} {rootType : Option TypeId} {text : String} {id : ElementId}
    {e : Element} (he : (ofText schema rootType text).get? id = some e) :
    ∃ stop, e.startTagEnd = some stop ∧
      ∀ t ∈ (tokenize text).map Scanned.token, t.span.start < stop → t.span.stop ≤ stop := by
  obtain ⟨past, s, d, hnil, hlocked, htokens, hfinish⟩ := exists_history schema
    (locked_start rootType text) fun hrest hP => hP.take hrest schema
  obtain ⟨-, -, hclosed⟩ := laid_ofText schema rootType text
  have hne : e.startTagEnd ≠ none := fun hnone => hclosed ⟨_, shapes_eq he, hnone⟩
  obtain ⟨stop, hstop⟩ := Option.ne_none_iff_exists'.1 hne
  have htoken := Scanner.token_scan_of_end hlocked.within hnil
  rw [hfinish] at he
  obtain ⟨e', he', hcarries⟩ :=
    (carries_finish schema d (congrArg (·.span.stop) htoken).symm).elements he
  rw [htokens]
  exact ⟨stop, hstop, (hlocked.ended_carries he' hcarries hstop).2⟩

end Draft

/-- Where tokens stand one behind the other and say what their spans cover, so do the attributes
that they write. -/
theorem Element.Faithful.attributed {text : String} {tokens : List Token} {e : Element} {stop : Nat}
    (h : e.Faithful tokens) (hslice : ∀ t ∈ tokens, t.span.slice? text = some t.text)
    (hordered : tokens.Pairwise fun a b => a.span.stop ≤ b.span.start)
    (hstop : e.startTagEnd = some stop)
    (hended : ∀ t ∈ tokens, t.span.start < stop → t.span.stop ≤ stop) :
    e.Attributed text tokens := by
  have hentries : e.attributes.entries = (Written.firsts (e.written tokens)).map Written.entry := h
  have htag : (e.startTag tokens).Sublist tokens := List.filter_sublist
  -- The spans of the attributes are those of tokens in the start tag, in their order.
  have hspans : (e.attributes.entries.flatMap (·.2.spans)).Sublist
      ((e.startTag tokens).map (·.span)) := by
    rw [hentries]
    exact Written.spans_sublist _
  -- Every attribute comes from a name that was written, with its value.
  have hsome : ∀ entry ∈ e.attributes.entries,
      ∃ w : Written, w.tokens.Sublist tokens ∧ entry = w.entry := by
    intro entry hentry
    rw [hentries] at hentry
    obtain ⟨w, hw, rfl⟩ := List.mem_map.1 hentry
    have hmem : w ∈ e.written tokens := (Written.sift_sublist [] _).subset hw
    exact ⟨w, (Written.sublist_of_mem hmem).trans htag, rfl⟩
  refine ⟨hentries, e.attributes.nodup, ?_, ?_, ⟨stop, hstop, ?_⟩, ?_⟩
  · intro entry hentry
    obtain ⟨w, -, rfl⟩ := hsome entry hentry
    rfl
  · intro entry hentry
    obtain ⟨w, hw, rfl⟩ := hsome entry hentry
    exact Written.readIn_toAttribute (fun t ht => hslice t (hw.subset ht)) (hordered.sublist hw)
  · intro span hspan
    obtain ⟨t, ht, rfl⟩ := List.mem_map.1 (hspans.subset hspan)
    obtain ⟨hmem, hin⟩ := List.mem_filter.1 ht
    obtain ⟨hstart, hbefore⟩ := of_decide_eq_true hin
    exact ⟨Nat.le_of_lt hstart, hended t hmem (hbefore stop hstop)⟩
  · exact ((List.pairwise_map.2 hordered).sublist (htag.map _)).sublist hspans

/-- For every text, schema and root type, the attributes of all elements are those of their start
tags. -/
theorem Document.attributed_parse (name text : String) (schema : Schema)
    (rootType : Option TypeId) : (parse name text schema rootType).Attributed := by
  obtain ⟨hfaithful, hremarks⟩ := Draft.attributed_ofText schema rootType text
  have hordered := (Scanner.pairwise_run (Scanner.ofText text)).imp And.right
  refine ⟨starts_parse name text schema rootType, fun he => ?_, ?_⟩
  · obtain ⟨stop, hstop, hended⟩ := Draft.ended_ofText he
    refine (hfaithful he).attributed (fun t ht => ?_) hordered hstop hended
    have hslice := (Scanner.tiles_ofText text).slice t ht
    rwa [String.ofList_toList] at hslice
  · rw [withCode_parse (fun h => Code.noConfusion h) (fun h => Code.noConfusion h)]
    exact hremarks

/-- The root has no start tag, and so it has no attributes. -/
theorem Document.attributeValue?_root {name text : String} {schema : Schema}
    {rootType : Option TypeId} {e : Element}
    (he : (parse name text schema rootType).get? .root = some e) (key : String) :
    e.attributeValue? key = none := by
  obtain ⟨hfaithful, -⟩ := Draft.attributed_ofText schema rootType text
  have hentries : e.attributes.entries =
      (Written.firsts (e.written (parse name text schema rootType).tokens)).map Written.entry :=
    hfaithful he
  obtain ⟨r, hr, -, -, hstop, -⟩ := (isPlaced_parse name text schema rootType).root
  obtain rfl := Option.some_inj.1 (he.symm.trans hr)
  have hnil : e.startTag (parse name text schema rootType).tokens = [] := by
    refine List.filter_eq_nil_iff.2 fun t _ hin => ?_
    exact Nat.not_lt_zero _ ((of_decide_eq_true hin).2 0 hstop)
  unfold Element.written at hentries
  rw [hnil] at hentries
  unfold Element.attributeValue? Element.attribute? OrderedMap.get?
  rw [hentries]
  rfl

/-- The second `b` neither counts nor takes the place of the first one's value, and the value behind
the comment is not one of `c`. -/
example : ((Document.parse "Main" "<a b = \"1\" B='2' c=<!-- -->'3'/>" {} none).get? 1).map
    (fun e => e.attributes.entries.map fun entry => (entry.1, entry.2.value)) =
      some [("b", some "1"), ("c", none)] := by
  decide +kernel

end LayoutMarkup
