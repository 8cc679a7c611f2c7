import LayoutMarkup.Proofs.Document.Amending
import Mathlib.Data.List.Forall2
import Mathlib.Data.List.Nodup

/-!
# Ending elements

An element is closed by `/>` or by its end tag, or it is left open and there is a remark on it.
While the tokens come in, every element that is not closed is either left already, with its remark
in the log, or still open (`Draft.Accounted`). Most changes of a draft have nothing to do with the
ends of its elements (`Draft.SameEnds`). The others move one element: it begins (`Accounted.begin`),
it is closed (`Accounted.close`), or it is left (`Accounted.leave`).

The elements that are still open are the current one and those it stands in, so each of these
changes is about the first of them.
-/

namespace LayoutMarkup

/-! ## Remarks -/

/-- Whether the code is that of an element left open. -/
def Code.isUnclosed : Code → Bool
  | missingEndTag | expectedEndTag | unfinishedEndTag => true
  | _ => false

/-- The diagnostics about elements left open. -/
def Diagnostic.unclosed (found : List Diagnostic) : List Diagnostic :=
  found.filter fun x => x.code.any Code.isUnclosed

/-- A diagnostic about something else does not count. -/
theorem Diagnostic.unclosed_add {x : Diagnostic} (h : x.code.any Code.isUnclosed = false)
    (log : Log) : unclosed (log.add x).toList = unclosed log.toList := by
  unfold unclosed Log.add Log.toList
  rw [Array.toList_push, List.filter_append, List.filter_singleton, h]
  exact List.append_nil _

/-- A diagnostic about an element left open is the last one. -/
theorem Diagnostic.unclosed_add_self {x : Diagnostic} (h : x.code.any Code.isUnclosed = true)
    (log : Log) : unclosed (log.add x).toList = unclosed log.toList ++ [x] := by
  unfold unclosed Log.add Log.toList
  rw [Array.toList_push, List.filter_append, List.filter_singleton, h]
  rfl

/-! ## The end of an element -/

/-- At an offset the text reads `</` and a tag, and the name ends with the tag. -/
def Text.EndTagAt (text : List Char) (offset : Nat) (tag : String) : Prop :=
  ∃ front back, splitBytes? offset text = some (front, '<' :: '/' :: (tag.toList ++ back)) ∧
    ∀ c ∈ back.head?, isTagNameChar c = false

/-- The last character of the text in front of an offset is a `>`. -/
def Text.BracketBefore (text : List Char) (offset : Nat) : Prop :=
  ∃ front back, splitBytes? offset text = some (front ++ ['>'], back)

namespace Element

/-- The text has the end tag of the element where the element says. -/
def EndTagged (text : List Char) (e : Element) : Prop :=
  ∃ tag offset, e.tag = some tag ∧ e.endTagStart = some offset ∧ Text.EndTagAt text offset tag

/-- The element is closed by its end tag: the text has the end tag, and a `>` is the last character
in front of the end of the element. -/
structure Ended (text : List Char) (e : Element) : Prop where
  /-- The end tag. -/
  endTag : e.EndTagged text
  /-- The `>`. -/
  bracket : Text.BracketBefore text e.stop

/-- The tag has characters and stands right behind the `<` of the element. -/
def Marked (e : Element) : Prop :=
  ∀ span ∈ e.tagSpan, span.start = e.start + 1 ∧ span.start < span.stop

/-- What there may be to say about an element left open. -/
def lapses (e : Element) : List Cause :=
  [.missingEndTag e.tagText, .expectedEndTag e.tagText, .unfinishedEndTag e.tagText]

/-- The diagnostic says that the element was left open. -/
def Blamed (e : Element) (x : Diagnostic) : Prop :=
  ∃ cause ∈ e.lapses, x = cause.on e.markSpan

/-- What is said about an element left open has the code for it. -/
theorem isUnclosed_of_lapses {e : Element} {cause : Cause} (h : cause ∈ e.lapses) :
    cause.code.isUnclosed = true := by
  simp only [lapses, List.mem_cons, List.not_mem_nil, or_false] at h
  rcases h with rfl | rfl | rfl <;> rfl

/-- The element without all that its end has nothing to do with. -/
def ends (e : Element) : Element :=
  { e with startTagEnd := none, attributes := ∅, type := none, definition := none,
           alternationFailed := false }

end Element

namespace Draft

variable {text : List Char} {left opens : List ElementId} {d d' : Draft} {id : ElementId}
  {e : Element}

/-! ## Changes that no end depends on -/

/-- Two drafts whose elements end alike and that say the same about it. -/
structure SameEnds (d d' : Draft) : Prop where
  /-- The elements end alike. -/
  ends : ∀ j, (d'.get? j).map Element.ends = (d.get? j).map Element.ends
  /-- They have the same current element. -/
  current : d'.current = d.current
  /-- They wait for the same end tag. -/
  endTagTarget : d'.endTagTarget = d.endTagTarget
  /-- They agree on whether a second top-level element was reported. -/
  manyReported : d'.manyReported = d.manyReported
  /-- They say the same about elements left open. -/
  unclosed : Diagnostic.unclosed d'.log.toList = Diagnostic.unclosed d.log.toList
  /-- They say the same about a second top-level element. -/
  topLevel : Diagnostic.withCode .manyTopLevel d'.log.toList =
    Diagnostic.withCode .manyTopLevel d.log.toList

/-- A draft has its own ends. -/
theorem SameEnds.refl (d : Draft) : d.SameEnds d :=
  ⟨fun _ => rfl, rfl, rfl, rfl, rfl, rfl⟩

/-- Agreement goes on. -/
theorem SameEnds.trans {d'' : Draft} (h : d.SameEnds d') (h' : d'.SameEnds d'') :
    d.SameEnds d'' where
  ends j := (h'.ends j).trans (h.ends j)
  current := h'.current.trans h.current
  endTagTarget := h'.endTagTarget.trans h.endTagTarget
  manyReported := h'.manyReported.trans h.manyReported
  unclosed := h'.unclosed.trans h.unclosed
  topLevel := h'.topLevel.trans h.topLevel

/-- Agreement goes both ways. -/
theorem SameEnds.symm (h : d.SameEnds d') : d'.SameEnds d where
  ends j := (h.ends j).symm
  current := h.current.symm
  endTagTarget := h.endTagTarget.symm
  manyReported := h.manyReported.symm
  unclosed := h.unclosed.symm
  topLevel := h.topLevel.symm

/-- The element of the other draft ends alike. -/
theorem SameEnds.exists_get? (h : d.SameEnds d') (he : d.get? id = some e) :
    ∃ e', d'.get? id = some e' ∧ e'.ends = e.ends := by
  have hends := h.ends id
  rw [he] at hends
  exact Option.map_eq_some_iff.1 hends

/-- A change that is not about the end leaves it. -/
theorem sameEnds_adjust (d : Draft) (id : ElementId) {f : Element → Element}
    (hf : ∀ e, (f e).ends = e.ends) : d.SameEnds (d.adjust id f) := by
  refine ⟨fun j => ?_, rfl, rfl, rfl, rfl, rfl⟩
  rw [get?_adjust]
  split
  next =>
    rw [Option.map_map]
    exact congrArg (fun g => (d.get? j).map g) (funext hf)
  next => rfl

/-- A diagnostic about something else leaves the ends. -/
theorem sameEnds_add (d : Draft) {x : Diagnostic} (hunclosed : x.code.any Code.isUnclosed = false)
    (htop : x.code ≠ some .manyTopLevel) : d.SameEnds { d with log := d.log.add x } :=
  ⟨fun _ => rfl, rfl, rfl, rfl, Diagnostic.unclosed_add hunclosed d.log,
    Diagnostic.withCode_add htop d.log⟩

/-- A report about something else leaves the ends. -/
theorem sameEnds_report (d : Draft) {cause : Cause} (hunclosed : cause.code.isUnclosed = false)
    (htop : cause.code ≠ .manyTopLevel) (span : Span) : d.SameEnds (d.report cause span) :=
  d.sameEnds_add hunclosed (mt Option.some_inj.1 htop)

/-- What waits for its value makes no difference. -/
theorem sameEnds_pending (d : Draft) (pending : Option String) :
    d.SameEnds { d with pending } :=
  ⟨fun _ => rfl, rfl, rfl, rfl, rfl, rfl⟩

/-- Choosing a type leaves the ends. -/
theorem sameEnds_resolveAlternation (schema : Schema) (d : Draft) (id : ElementId) :
    d.SameEnds (resolveAlternation schema d id) := by
  unfold resolveAlternation
  split
  next => exact .refl d
  next =>
    split
    next =>
      split
      next => exact .refl d
      next =>
        dsimp only
        split
        next => exact d.sameEnds_adjust id fun _ => rfl
        next =>
          have hfailed : d.SameEnds (d.adjust id fun e => { e with alternationFailed := true }) :=
            d.sameEnds_adjust id fun _ => rfl
          exact hfailed.trans (sameEnds_report _ rfl (fun h => Code.noConfusion h) _)
    next => exact .refl d

/-- Closing a start tag leaves the ends. -/
theorem sameEnds_closeStartTag (schema : Schema) (d : Draft) (offset : Nat) :
    d.SameEnds (d.closeStartTag schema offset) := by
  have hclosed := sameEnds_adjust { d with pending := none } d.current
    (f := fun e => { e with startTagEnd := some offset }) fun _ => rfl
  exact ((d.sameEnds_pending none).trans hclosed).trans (sameEnds_resolveAlternation ..)

/-- Closing a start tag that is open leaves the ends. -/
theorem sameEnds_endStartTag (schema : Schema) (d : Draft) (offset : Nat) :
    d.SameEnds (d.endStartTag schema offset) := by
  unfold endStartTag
  split
  next => exact sameEnds_closeStartTag schema d offset
  next => exact .refl d

/-- An attribute leaves the ends. -/
theorem sameEnds_addAttribute (d : Draft) (token : Token) :
    d.SameEnds (d.addAttribute token) := by
  have hpending := d.sameEnds_pending none
  unfold addAttribute
  dsimp only
  split
  next => exact hpending
  next =>
    split
    next => exact hpending.trans (sameEnds_report _ rfl (fun h => Code.noConfusion h) _)
    next =>
      refine (hpending.trans ?_).trans (sameEnds_pending _ _)
      exact sameEnds_adjust _ d.current fun _ => rfl

/-- A value leaves the ends. -/
theorem sameEnds_setValue (d : Draft) (token : Token) : d.SameEnds (d.setValue token) := by
  unfold setValue
  split
  next => exact .refl d
  next key hkey => exact (d.sameEnds_pending none).trans (sameEnds_adjust _ _ fun _ => rfl)

/-- Apart from the tag itself, naming the current element leaves the ends. -/
theorem sameEnds_nameElement (schema : Schema) (d : Draft) (token : Token)
    (hroot : d.current ≠ .root) :
    (d.adjust d.current fun e =>
      { e with tag := some token.text, tagSpan := some token.span }).SameEnds
      (d.nameElement schema token) := by
  unfold nameElement
  rw [if_neg hroot]
  dsimp only
  split
  next => exact .refl _
  next =>
    split
    next => exact sameEnds_adjust _ _ fun _ => rfl
    next =>
      split
      next => exact .refl _
      next => exact sameEnds_report _ rfl (fun h => Code.noConfusion h) _

/-! ## The open elements -/

/-- The elements that one stands in depend on the parents of smaller numbers. -/
theorem openChain_congr (h : ∀ j ≤ id, d'.parentOf j = d.parentOf j) :
    d'.openChain id = d.openChain id := by
  induction id using Nat.strongRecOn with
  | ind id ih =>
    rw [openChain, openChain.eq_def d, h id (Nat.le_refl id)]
    split
    next => rfl
    next =>
      split
      next hlt =>
        rw [ih _ hlt fun j hj => h j (Nat.le_trans hj (Nat.le_of_lt hlt))]
      next => rfl

/-- The parents are where the elements end alike. -/
theorem SameEnds.parentOf (h : d.SameEnds d') (j : ElementId) : d'.parentOf j = d.parentOf j := by
  have hview : ∀ c : Draft, c.parentOf j =
      (((c.get? j).map Element.ends).bind (·.parent)).getD .root := by
    intro c
    unfold Draft.parentOf
    cases c.get? j <;> rfl
  rw [hview, hview, h.ends]

/-- The same elements are open. -/
theorem SameEnds.openChain (h : d.SameEnds d') :
    d'.openChain d'.current = d.openChain d.current := by
  rw [h.current]
  exact openChain_congr fun j _ => h.parentOf j

/-- A change that leaves the parent of an element leaves all parents. -/
theorem parentOf_adjust (d : Draft) (id : ElementId) {f : Element → Element}
    (hf : ∀ e, (f e).parent = e.parent) (j : ElementId) :
    (d.adjust id f).parentOf j = d.parentOf j := by
  unfold parentOf
  rw [get?_adjust]
  split
  next =>
    cases d.get? j with
    | none => rfl
    | some e => exact congrArg (Option.getD · ElementId.root) (hf e)
  next => rfl

/-- The current element comes first, and then those its parent is open in. -/
theorem Fits.openChain_current {P : Nat → Prop} {length mark : Nat} {stack : List ElementId}
    (h : d.Fits P length mark stack) (hroot : d.current ≠ .root) :
    d.openChain d.current = d.current :: d.openChain (d.parentOf d.current) := by
  obtain ⟨rest, rfl⟩ := List.head?_eq_some_iff.1 h.current
  obtain ⟨s, p, below, hs, hparent, -, -⟩ := h.laid.stacked.exists_parent hroot
  have hlt := (h.laid.lt_of_parent hs hparent).1
  rw [openChain, if_neg hroot, parentOf_eq hs hparent, if_pos hlt]

/-! ## The account -/

/-- An element other than the root is not closed. -/
def Unclosed (d : Draft) (id : ElementId) : Prop :=
  id ≠ .root ∧ ∃ e, d.get? id = some e ∧ e.closed = false

/-- The diagnostic says that the element with a number was left open. -/
def Blames (d : Draft) (id : ElementId) (x : Diagnostic) : Prop :=
  ∃ e, d.get? id = some e ∧ e.Blamed x

/-- A second top-level element is reported once, when there is one. -/
def CountsTop (d : Draft) : Prop :=
  ∃ r, d.get? .root = some r ∧ (d.manyReported = true ↔ 2 ≤ r.children.length) ∧
    (Diagnostic.withCode .manyTopLevel d.log.toList).length = d.manyReported.toNat

/-- The elements that are not closed are those left, each with its remark in the log, and those
still open. The others have their end tags in the text, unless they are closed by `/>`. -/
structure Accounted (text : List Char) (left opens : List ElementId) (d : Draft) : Prop where
  /-- There is one remark for each element left, in the same order. -/
  remarks : List.Forall₂ d.Blames left (Diagnostic.unclosed d.log.toList)
  /-- No element is left twice, or left and still open. -/
  nodup : (left ++ opens).Nodup
  /-- These are the elements that are not closed. -/
  mem_iff : ∀ {id}, id ∈ left ++ opens ↔ d.Unclosed id
  /-- An element that is closed, and not by `/>`, is closed by its end tag. -/
  ended : ∀ {id e}, d.get? id = some e → id ≠ .root → e.closed = true → e.selfClosed = false →
    e.Ended text
  /-- Tags stand behind `<`. -/
  marked : ∀ {id e}, d.get? id = some e → e.Marked
  /-- Top-level elements are counted. -/
  counts : d.CountsTop

/-- Where elements end alike, the same ones are not closed. -/
theorem SameEnds.unclosed_of (h : d.SameEnds d') (hid : d.Unclosed id) : d'.Unclosed id := by
  obtain ⟨hroot, e, he, hopen⟩ := hid
  obtain ⟨e', he', hends⟩ := h.exists_get? he
  exact ⟨hroot, e', he', (congrArg Element.closed hends).trans hopen⟩

/-- Where elements end alike, the same was said about them. -/
theorem SameEnds.blames (h : d.SameEnds d') {x : Diagnostic} (hx : d.Blames id x) :
    d'.Blames id x := by
  obtain ⟨e, he, hblamed⟩ := hx
  obtain ⟨e', he', hends⟩ := h.exists_get? he
  have hview : e'.ends.Blamed x := by
    rw [hends]
    exact hblamed
  exact ⟨e', he', hview⟩

/-- Changes that no end depends on leave the account. -/
theorem Accounted.same (h : d.Accounted text left opens) (hsame : d.SameEnds d') :
    d'.Accounted text left opens where
  remarks := by
    rw [hsame.unclosed]
    exact h.remarks.imp fun _ _ => hsame.blames
  nodup := h.nodup
  mem_iff := h.mem_iff.trans ⟨hsame.unclosed_of, hsame.symm.unclosed_of⟩
  ended {id e} he hroot hclosed hself := by
    obtain ⟨e', he', hends⟩ := hsame.symm.exists_get? he
    have hended := h.ended he' hroot ((congrArg Element.closed hends).trans hclosed)
      ((congrArg Element.selfClosed hends).trans hself)
    -- What is said about the end of an element is said about its ends alone.
    have hview : e.ends.Ended text := by
      rw [← hends]
      exact ⟨hended.endTag, hended.bracket⟩
    exact ⟨hview.endTag, hview.bracket⟩
  marked {id e} he := by
    obtain ⟨e', he', hends⟩ := hsame.symm.exists_get? he
    have hmarked := h.marked he'
    have hview : e.ends.Marked := by
      rw [← hends]
      exact hmarked
    exact hview
  counts := by
    obtain ⟨r, hr, hmany, hlength⟩ := h.counts
    obtain ⟨r', hr', hends⟩ := hsame.exists_get? hr
    -- Children are among the ends, so the top level is as crowded as before.
    have hchildren : r'.children = r.children := by
      have hview := congrArg Element.children hends
      exact hview
    refine ⟨r', hr', ?_, ?_⟩
    · rw [hsame.manyReported, hchildren]
      exact hmany
    · rw [hsame.topLevel, hsame.manyReported]
      exact hlength

/-- The account is about the elements and the log. -/
theorem Accounted.congr (h : d.Accounted text left opens) (helements : d'.elements = d.elements)
    (hmany : d'.manyReported = d.manyReported) (hlog : d'.log = d.log) :
    d'.Accounted text left opens := by
  obtain ⟨elements, current, pending, endTagOpen, endTagTarget, manyReported, log⟩ := d'
  obtain rfl := helements
  obtain rfl := hmany
  obtain rfl := hlog
  exact ⟨h.remarks, h.nodup, h.mem_iff, h.ended, h.marked, h.counts⟩

/-- An open element is not left. -/
theorem Accounted.notMem_left (h : d.Accounted text left opens) (hid : id ∈ opens) :
    id ∉ left :=
  fun hleft => (List.disjoint_of_nodup_append h.nodup) hleft hid

/-- An open element is not closed. -/
theorem Accounted.unclosed (h : d.Accounted text left opens) (hid : id ∈ opens) :
    d.Unclosed id :=
  h.mem_iff.1 (List.mem_append_right left hid)

/-- Every remark is on an element left. -/
theorem Accounted.exists_blames (h : d.Accounted text left opens) {x : Diagnostic}
    (hx : x ∈ Diagnostic.unclosed d.log.toList) : ∃ id ∈ left, d.Blames id x := by
  obtain ⟨n, rfl⟩ := List.mem_iff_get.1 hx
  have hn : n < left.length := by
    rw [h.remarks.length_eq]
    exact n.2
  exact ⟨_, List.get_mem left ⟨n, hn⟩, h.remarks.get hn n.2⟩

/-- There is a remark on every element left. -/
theorem Accounted.exists_remark (h : d.Accounted text left opens) (hid : id ∈ left) :
    ∃ x ∈ Diagnostic.unclosed d.log.toList, d.Blames id x := by
  obtain ⟨n, rfl⟩ := List.mem_iff_get.1 hid
  have hn : n < (Diagnostic.unclosed d.log.toList).length := by
    rw [← h.remarks.length_eq]
    exact n.2
  exact ⟨_, List.get_mem _ ⟨n, hn⟩, h.remarks.get n.2 hn⟩

/-- The other elements after one was changed. -/
theorem get?_adjust_of_ne {j : ElementId} (hne : j ≠ id) (f : Element → Element) :
    (d.adjust id f).get? j = d.get? j := by
  rw [get?_adjust, if_neg fun heq => hne heq.symm]

/-- What was said about the elements left stays when an open one is changed. -/
theorem Accounted.remarks_adjust (h : d.Accounted text left opens) (hid : id ∈ opens)
    (f : Element → Element) :
    List.Forall₂ (d.adjust id f).Blames left (Diagnostic.unclosed d.log.toList) := by
  have hne : ∀ j ∈ left, j ≠ id := by
    rintro j hj rfl
    exact h.notMem_left hid hj
  refine ((List.forall₂_and_left ..).2 ⟨hne, h.remarks⟩).imp fun j x ⟨hj, e, he, hblamed⟩ => ?_
  exact ⟨e, (get?_adjust_of_ne hj f).trans he, hblamed⟩

/-- The top-level elements are counted when an open one is changed. -/
theorem Accounted.counts_adjust (h : d.Accounted text left opens) (hid : id ∈ opens)
    (f : Element → Element) : (d.adjust id f).CountsTop := by
  obtain ⟨r, hr, hcounts⟩ := h.counts
  exact ⟨r, (get?_adjust_of_ne (h.unclosed hid).1.symm f).trans hr, hcounts⟩

/-- An open element may be changed as long as it is not closed. -/
theorem Accounted.amend (h : d.Accounted text left opens) (hid : id ∈ opens)
    {f : Element → Element} (hclosed : ∀ e, e.closed = false → (f e).closed = false)
    (hmarked : ∀ e, d.get? id = some e → e.Marked → (f e).Marked) :
    (d.adjust id f).Accounted text left opens := by
  obtain ⟨hroot, e, he, hopen⟩ := h.unclosed hid
  have hnew := get?_adjust_self he f
  refine ⟨h.remarks_adjust hid f, h.nodup, fun {j} => h.mem_iff.trans ?_, fun {j e'} he' => ?_,
    fun {j e'} he' => ?_, h.counts_adjust hid f⟩
  · by_cases hj : j = id
    · subst hj
      -- The element is not closed before, and not afterwards.
      exact iff_of_true ⟨hroot, e, he, hopen⟩ ⟨hroot, f e, hnew, hclosed e hopen⟩
    · unfold Unclosed
      rw [get?_adjust_of_ne hj]
  · by_cases hj : j = id
    · subst hj
      obtain rfl := Option.some_inj.1 (hnew.symm.trans he')
      exact fun _ hyes => absurd ((hclosed e hopen).symm.trans hyes) Bool.false_ne_true
    · rw [get?_adjust_of_ne hj] at he'
      exact h.ended he'
  · by_cases hj : j = id
    · subst hj
      obtain rfl := Option.some_inj.1 (hnew.symm.trans he')
      exact hmarked e he (h.marked he)
    · rw [get?_adjust_of_ne hj] at he'
      exact h.marked he'

/-- The first open element may be closed: by `/>`, or by the end tag that the text has. -/
theorem Accounted.close (h : d.Accounted text left (id :: opens)) (he : d.get? id = some e)
    {f : Element → Element} (hclosed : (f e).closed = true) (hmarked : e.Marked → (f e).Marked)
    (hended : (f e).selfClosed = false → (f e).Ended text) :
    (d.adjust id f).Accounted text left opens := by
  have hid : id ∈ id :: opens := List.mem_cons_self
  have hnew := get?_adjust_self he f
  obtain ⟨hnot, hnodup⟩ := List.nodup_cons.1 (List.nodup_middle.1 h.nodup)
  refine ⟨h.remarks_adjust hid f, hnodup, fun {j} => ?_, fun {j e'} he' => ?_,
    fun {j e'} he' => ?_, h.counts_adjust hid f⟩
  · by_cases hj : j = id
    · subst hj
      -- The element is closed now, so it is not unclosed, and it occurs only once.
      refine iff_of_false hnot fun ⟨_, e', he', hopen⟩ => ?_
      obtain rfl := Option.some_inj.1 (hnew.symm.trans he')
      exact Bool.false_ne_true (hopen.symm.trans hclosed)
    · have hold : j ∈ left ++ id :: opens ↔ j ∈ left ++ opens := by
        rw [List.mem_append, List.mem_append, List.mem_cons, or_iff_right hj]
      unfold Unclosed
      rw [get?_adjust_of_ne hj]
      exact hold.symm.trans h.mem_iff
  · by_cases hj : j = id
    · subst hj
      -- The account of a closed element is `hended`.
      obtain rfl := Option.some_inj.1 (hnew.symm.trans he')
      exact fun _ _ => hended
    · rw [get?_adjust_of_ne hj] at he'
      exact h.ended he'
  · by_cases hj : j = id
    · subst hj
      obtain rfl := Option.some_inj.1 (hnew.symm.trans he')
      exact hmarked (h.marked he)
    · rw [get?_adjust_of_ne hj] at he'
      exact h.marked he'

/-- A remark on the first open element says that it is left. -/
theorem Accounted.blame (h : d.Accounted text left (id :: opens)) (he : d.get? id = some e)
    {cause : Cause} (hcause : cause ∈ e.lapses) :
    (d.report cause e.markSpan).Accounted text (left ++ [id]) opens := by
  have hcode := Element.isUnclosed_of_lapses hcause
  -- The element goes from the open ones to those that are left, so together they stay the same.
  have hlist : left ++ [id] ++ opens = left ++ id :: opens := by simp
  have hremark : d.Blames id (cause.on e.markSpan) := ⟨e, he, cause, hcause, rfl⟩
  refine ⟨?_, hlist ▸ h.nodup, hlist ▸ h.mem_iff, h.ended, h.marked, ?_⟩
  · have hadded := Diagnostic.unclosed_add_self (x := cause.on e.markSpan) hcode d.log
    unfold report
    rw [hadded]
    exact List.rel_append h.remarks (.cons hremark .nil)
  · obtain ⟨r, hr, hmany, hlength⟩ := h.counts
    refine ⟨r, hr, hmany, ?_⟩
    -- The code of an unclosed element is not the one of a crowded top level.
    have hother : (cause.on e.markSpan).code ≠ some .manyTopLevel := by
      intro hsame
      have htop : cause.code = .manyTopLevel := Option.some_inj.1 hsame
      rw [htop] at hcode
      exact Bool.noConfusion hcode
    unfold report
    rw [Diagnostic.withCode_add hother]
    exact hlength

/-- The first open element may be left at an offset, with a remark on it. -/
theorem Accounted.leave (h : d.Accounted text left (id :: opens)) (he : d.get? id = some e)
    {cause : Cause} (hcause : cause ∈ e.lapses) (offset : Nat) :
    ((d.report cause e.markSpan).adjust id fun e =>
      { e with stop := offset, closed := false }).Accounted text (left ++ [id]) opens := by
  -- The remark does not depend on where the element ends.
  have hmoved := h.amend List.mem_cons_self
    (f := fun e => { e with stop := offset, closed := false }) (fun _ _ => rfl)
    fun _ _ hmarked => hmarked
  exact hmoved.blame (get?_adjust_self he _) hcause

/-! ## A new element -/

/-- Reporting a second top-level element makes no difference to the elements. -/
theorem noteTopLevel_keeps (d : Draft) (span : Span) :
    (d.noteTopLevel span).elements = d.elements ∧ (d.noteTopLevel span).current = d.current ∧
      (d.noteTopLevel span).endTagTarget = d.endTagTarget := by
  unfold noteTopLevel
  split
  next => exact ⟨rfl, rfl, rfl⟩
  next => exact ⟨rfl, rfl, rfl⟩

/-- A second top-level element is not one left open. -/
theorem unclosed_noteTopLevel (d : Draft) (span : Span) :
    Diagnostic.unclosed (d.noteTopLevel span).log.toList = Diagnostic.unclosed d.log.toList := by
  unfold noteTopLevel
  split
  next => exact Diagnostic.unclosed_add rfl d.log
  next => rfl

/-- The element that begins is a child of the current one. -/
theorem get?_begin (d : Draft) (span : Span) (length offset : Nat) (j : ElementId) :
    ((d.noteTopLevel span).addChild length offset).get? j = (d.addChild length offset).get? j := by
  obtain ⟨helements, hcurrent, -⟩ := d.noteTopLevel_keeps span
  have hget : (d.noteTopLevel span).get? j = d.get? j := by
    unfold get?
    rw [helements]
  rw [get?_addChild, get?_addChild, helements, hcurrent, hget]

/-- The second top-level element is the one that is reported. -/
theorem CountsTop.begin (h : d.CountsTop) (span : Span) (length offset : Nat) :
    ((d.noteTopLevel span).addChild length offset).CountsTop := by
  obtain ⟨r, hr, hmany, hlength⟩ := h
  have hsize : ElementId.root ≠ d.elements.size :=
    Nat.ne_of_lt (Array.getElem?_eq_some_iff.1 hr).1
  have hroot := (d.get?_begin span length offset .root).trans (d.get?_addChild length offset .root)
  rw [if_neg hsize] at hroot
  -- Only in the root there is a top-level element.
  by_cases hcurrent : d.current = .root
  · rw [if_pos hcurrent, hr] at hroot
    refine ⟨_, hroot, ?_⟩
    dsimp only
    rw [List.length_append, List.length_singleton]
    have hchildren : (d.get? .root).any (!·.children.isEmpty) = true ↔ 1 ≤ r.children.length := by
      rw [hr, Option.any_some, Bool.not_eq_true', List.isEmpty_eq_false_iff, Nat.succ_le_iff,
        List.length_pos_iff]
    unfold noteTopLevel
    split
    next hsecond =>
      -- Nothing was reported so far, so there is exactly one child.
      have hfirst : d.manyReported = false := Bool.eq_false_iff.2 hsecond.2.2
      rw [hfirst] at hlength
      have hcode : (Cause.manyTopLevel.on span).code = some .manyTopLevel := rfl
      have hadded := Diagnostic.withCode_add_self hcode d.log
      refine ⟨iff_of_true rfl (Nat.succ_le_succ (hchildren.1 hsecond.2.1)), ?_⟩
      refine (congrArg List.length hadded).trans ?_
      rw [List.length_append, hlength]
      rfl
    next hnot =>
      refine ⟨hmany.trans ⟨fun hle => Nat.le_succ_of_le hle, fun hle => ?_⟩, hlength⟩
      by_contra hfew
      exact hnot ⟨hcurrent, hchildren.2 (Nat.le_of_succ_le_succ hle), mt hmany.1 hfew⟩
  · rw [if_neg hcurrent, hr] at hroot
    have hsame : d.noteTopLevel span = d := if_neg fun hnote => hcurrent hnote.1
    refine ⟨r, hroot, ?_⟩
    rw [hsame]
    exact ⟨hmany, hlength⟩

/-- The elements so far stay as they are, whether or not one of them gets a child. -/
theorem exists_get?_begin (he : d.get? id = some e) (span : Span) (length offset : Nat) :
    ∃ children, ((d.noteTopLevel span).addChild length offset).get? id =
      some { e with children } := by
  have hne : id ≠ d.elements.size := Nat.ne_of_lt (Array.getElem?_eq_some_iff.1 he).1
  rw [get?_begin, get?_addChild, if_neg hne, he]
  split
  next => exact ⟨_, rfl⟩
  next => exact ⟨e.children, rfl⟩

/-- An element is the new one or was there. -/
theorem get?_begin_cases {span : Span} {length offset : Nat}
    (he : ((d.noteTopLevel span).addChild length offset).get? id = some e) :
    id = d.elements.size ∧ e = { start := offset, stop := length, parent := some d.current } ∨
      ∃ e₀ children, d.get? id = some e₀ ∧ e = { e₀ with children } := by
  rw [get?_begin, get?_addChild] at he
  split at he
  next hid => exact Or.inl ⟨hid, (Option.some_inj.1 he).symm⟩
  next =>
    split at he
    next =>
      obtain ⟨e₀, he₀, rfl⟩ := Option.map_eq_some_iff.1 he
      exact Or.inr ⟨e₀, _, he₀, rfl⟩
    next => exact Or.inr ⟨e, e.children, he, rfl⟩

/-- An element is not closed when it is the new one or was not closed before. -/
theorem unclosed_begin_iff (hroot : d.elements.size ≠ ElementId.root) (span : Span)
    (length offset : Nat) :
    ((d.noteTopLevel span).addChild length offset).Unclosed id ↔
      id = d.elements.size ∨ d.Unclosed id := by
  constructor
  · rintro ⟨hid, e, he, hopen⟩
    rcases get?_begin_cases he with ⟨hnew, -⟩ | ⟨e₀, children, he₀, rfl⟩
    · exact Or.inl hnew
    · exact Or.inr ⟨hid, e₀, he₀, hopen⟩
  · rintro (rfl | ⟨hid, e, he, hopen⟩)
    · have hnew := (d.get?_begin span length offset d.elements.size).trans
        (d.get?_addChild length offset d.elements.size)
      rw [if_pos rfl] at hnew
      exact ⟨hroot, _, hnew, rfl⟩
    · obtain ⟨children, hkept⟩ := exists_get?_begin he span length offset
      exact ⟨hid, _, hkept, hopen⟩

/-- An element that begins is open. -/
theorem Accounted.begin (h : d.Accounted text left opens) (span : Span) (length offset : Nat) :
    ((d.noteTopLevel span).addChild length offset).Accounted text left
      (d.elements.size :: opens) := by
  -- The number of the new element is not in the account yet.
  have hnew : d.elements.size ∉ left ++ opens := by
    intro hmem
    obtain ⟨-, e, he, -⟩ := h.mem_iff.1 hmem
    exact Nat.lt_irrefl _ (Array.getElem?_eq_some_iff.1 he).1
  have hroot : d.elements.size ≠ ElementId.root := by
    obtain ⟨r, hr, -⟩ := h.counts
    exact Nat.ne_of_gt (Array.getElem?_eq_some_iff.1 hr).1
  have hlog : Diagnostic.unclosed ((d.noteTopLevel span).addChild length offset).log.toList =
      Diagnostic.unclosed d.log.toList := d.unclosed_noteTopLevel span
  refine ⟨?_, List.nodup_middle.2 (List.nodup_cons.2 ⟨hnew, h.nodup⟩), fun {j} => ?_,
    fun {j e} he hj hclosed hself => ?_, fun {j e} he => ?_, h.counts.begin span length offset⟩
  · rw [hlog]
    refine h.remarks.imp fun j x ⟨e, he, hblamed⟩ => ?_
    obtain ⟨children, hkept⟩ := exists_get?_begin he span length offset
    exact ⟨_, hkept, hblamed⟩
  · rw [unclosed_begin_iff hroot, ← h.mem_iff, List.mem_append, List.mem_append, List.mem_cons,
      or_left_comm]
  · rcases get?_begin_cases he with ⟨-, rfl⟩ | ⟨e₀, children, he₀, rfl⟩
    · exact Bool.noConfusion hclosed
    · have hended := h.ended he₀ hj hclosed hself
      exact ⟨hended.endTag, hended.bracket⟩
  · rcases get?_begin_cases he with ⟨-, rfl⟩ | ⟨e₀, children, he₀, rfl⟩
    · exact fun _ hspan => nomatch hspan
    · have hmarked := h.marked he₀
      exact hmarked

/-- The open elements are those so far and the new one. -/
theorem openChain_begin (hcurrent : d.current < d.elements.size) (span : Span)
    (length offset : Nat) :
    ((d.noteTopLevel span).addChild length offset).openChain d.elements.size =
      d.elements.size :: d.openChain d.current := by
  have hget : ∀ j, ((d.noteTopLevel span).addChild length offset).get? j = _ := fun j =>
    (d.get?_begin span length offset j).trans (d.get?_addChild length offset j)
  have hparent : ((d.noteTopLevel span).addChild length offset).parentOf d.elements.size =
      d.current := by
    unfold parentOf
    rw [hget, if_pos rfl]
    rfl
  have hroot : d.elements.size ≠ ElementId.root := Nat.ne_of_gt (Nat.zero_lt_of_lt hcurrent)
  rw [openChain, if_neg hroot, hparent, if_pos hcurrent]
  congr 1
  refine openChain_congr fun j hj => ?_
  unfold parentOf
  rw [hget, if_neg (Nat.ne_of_lt (Nat.lt_of_le_of_lt hj hcurrent))]
  split
  next => cases d.get? j <;> rfl
  next => rfl

end Draft

end LayoutMarkup
