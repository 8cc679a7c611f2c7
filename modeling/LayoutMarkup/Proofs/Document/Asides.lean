import LayoutMarkup.Proofs.Document.RoundTrip
import LayoutMarkup.Proofs.Document.Unplaced
import LayoutMarkup.Schema.Layout

/-!
# What stands aside

Comments, headers and texts between tags leave no trace in a document but that what comes behind
them stands elsewhere (`Document.parse_aside`). They may be put wherever the scanner stands outside
of tags, in texts with whatever problems.

Three facts carry this. The scanner that ends outside of tags goes on from there when its text goes
on, so a text can be read in two parts (`Draft.read_append`). What stands aside leads from one such
place to another and leaves the draft as it is (`Aside.leads`). And what is read depends on the
characters alone, not on their offsets or the length of the text (`Draft.unplaced_read`).
-/

namespace LayoutMarkup

open Scanner (State)

/-! ## Reading in parts -/

namespace Scanner

/-- A step takes the same token in the same state wherever the text stands. -/
theorem unplaced_advance (offset offset' : Nat) (cs : List Char) (state : State)
    {pending pending' : Option Diagnostic}
    (hpending : pending.map Diagnostic.unplaced = pending'.map Diagnostic.unplaced) :
    (advance offset cs state pending).unplaced = (advance offset' cs state pending').unplaced := by
  have hcause : ∀ (cause : Option Cause) (span span' : Span) {pending pending' : Option Diagnostic},
      pending.map Diagnostic.unplaced = pending'.map Diagnostic.unplaced →
      ((cause.map (·.on span)).or pending).map Diagnostic.unplaced =
        ((cause.map (·.on span')).or pending').map Diagnostic.unplaced := by
    intro cause span span' pending pending' hpending
    cases cause with
    | none => exact hpending
    | some cause => rfl
  fun_induction advance offset cs state pending generalizing pending' with
  | case1 state pending kind lexeme rest next cause hmove =>
    rw [advance_of_take hmove offset' pending']
    exact congrArg (Scanned.mk ⟨kind, .point 0, String.ofList lexeme⟩ · ⟨rest, 0, next⟩)
      (hcause cause _ _ hpending)
  | case2 state pending next cause hmove ih =>
    rw [advance_of_turn hmove offset' pending']
    exact ih (hcause cause _ _ hpending)

end Scanner

namespace Draft

variable {schema : Schema} {length length' : Nat} {d d' : Draft}

/-- What is read depends on the characters alone, and not on where they stand. -/
theorem unplaced_read (hd : d.unplaced = d'.unplaced) (s : Scanner) (offset : Nat) :
    (d.read schema length s).unplaced =
      (d'.read schema length' { s with offset := offset }).unplaced := by
  induction s using Scanner.run.induct generalizing d d' offset with
  | case1 s hnil =>
    obtain ⟨cs, offset', state⟩ := s
    subst hnil
    rw [read_nil, read_nil, hd]
  | case2 s hne ih =>
    -- The scanner at the other offset takes the same token, and is in the same state then.
    obtain ⟨moved, hmoved⟩ : ∃ moved : Scanner, moved = { s with offset := offset } := ⟨_, rfl⟩
    have hrest : moved.rest ≠ [] := hmoved ▸ hne
    have hscan : s.scan.unplaced = moved.scan.unplaced := by
      rw [hmoved]
      exact Scanner.unplaced_advance s.offset offset s.rest s.state rfl
    have hafter : moved.scan.after = { s.scan.after with offset := moved.scan.after.offset } := by
      have hrest : s.scan.after.rest = moved.scan.after.rest := congrArg (·.after.rest) hscan
      have hstate : s.scan.after.state = moved.scan.after.state := congrArg (·.after.state) hscan
      dsimp only
      rw [hrest, hstate]
    have htake : (d.take schema length s.scan).unplaced =
        (d'.take schema length' moved.scan).unplaced := by
      rw [unplaced_take, unplaced_take, hd, hscan]
    rw [← hmoved, read_scan hne, read_scan hrest, hafter]
    exact ih htake _

/-- A text whose scan ends outside of tags can be read first, and what follows it then. -/
theorem read_append (schema : Schema) (length : Nat) (d : Draft) {s : Scanner}
    (hend : s.endState? = some .content) (x : List Char) :
    ∃ offset, d.read schema length { s with rest := s.rest ++ x } =
      (d.read schema length s).read schema length ⟨x, offset, .content⟩ := by
  induction s using Scanner.run.induct generalizing d with
  | case1 s hnil =>
    obtain ⟨cs, offset, state⟩ := s
    subst hnil
    rw [Scanner.endState?_nil] at hend
    cases hend
    refine ⟨offset, ?_⟩
    rw [read_nil]
    rfl
  | case2 s hne ih =>
    have hne' : s.rest ++ x ≠ [] := List.append_ne_nil_of_left_ne_nil hne x
    rw [Scanner.endState?_scan hne] at hend
    have houtlook := Scanner.advance_outlook s.offset hne s.state none
    rcases houtlook with hsettled | hstray | ⟨hstate, htext⟩
    · -- The step is the same, and reading goes on behind it.
      obtain ⟨offset, hread⟩ := ih (d.take schema length s.scan) hend
      refine ⟨offset, ?_⟩
      have hscan : Scanner.scan { s with rest := s.rest ++ x } = s.scan.extend x := hsettled x
      rw [read_scan hne', hscan, read_scan hne]
      exact hread
    · exact absurd hend hstray
    · -- Text may be taken together with what follows it, but both are passed over.
      obtain ⟨cs, offset, state⟩ := s
      subst hstate
      have hleads : d.Leads schema length .content cs .content (· = d) := leads_text htext
      obtain ⟨offset', _, hread, rfl⟩ := hleads offset x
      obtain ⟨_, _, hself, rfl⟩ := hleads offset []
      rw [List.append_nil, read_nil] at hself
      exact ⟨offset', by rw [hread, hself]⟩

end Draft

/-! ## Comments, headers and texts -/

/-- What leaves no trace in a document: a comment, a header, or text. -/
inductive Aside : String → Prop where
  /-- A comment ends at the first `-->`. -/
  | comment (body : String) (h : ¬ "-->".toList <:+: body.toList) : Aside ("<!--" ++ body ++ "-->")
  /-- A header ends at the first `?>`. -/
  | header (body : String) (h : ¬ "?>".toList <:+: body.toList) : Aside ("<?" ++ body ++ "?>")
  /-- A text ends at the first `<`. -/
  | text (value : String) (h : '<' ∉ value.toList) : Aside value

/-- What stands aside leaves the draft as it is. -/
theorem Aside.leads {c : String} (h : Aside c) (schema : Schema) (length : Nat) (d : Draft) :
    d.Leads schema length .content c.toList .content (· = d) := by
  cases h with
  | comment body h =>
    have hchars : ("<!--" ++ body ++ "-->").toList =
        ['<', '!', '-', '-'] ++ (body.toList ++ ['-', '-', '>']) := by
      rw [String.toList_append, String.toList_append, List.append_assoc]
      rfl
    rw [hchars]
    exact Draft.leads_comment h
  | header body h =>
    have hchars : ("<?" ++ body ++ "?>").toList =
        ['<', '?'] ++ (body.toList ++ ['?', '>']) := by
      rw [String.toList_append, String.toList_append, List.append_assoc]
      rfl
    rw [hchars]
    exact Draft.leads_header h
  | text value h => exact Draft.leads_text h

/-- What stands aside behind a text whose scan ends outside of tags is passed over. -/
theorem Draft.read_aside (schema : Schema) (length : Nat) (d : Draft) {s : Scanner}
    (hend : s.endState? = some .content) {c : String} (hc : Aside c) (x : List Char) :
    ∃ offset, d.read schema length { s with rest := s.rest ++ (c.toList ++ x) } =
      (d.read schema length s).read schema length ⟨x, offset, .content⟩ := by
  obtain ⟨offset, hfirst⟩ := d.read_append schema length hend (c.toList ++ x)
  obtain ⟨offset', _, haside, rfl⟩ := hc.leads schema length (d.read schema length s) offset x
  exact ⟨offset', hfirst.trans haside⟩

/-! ## Documents -/

/-- Two elements that differ only in where they stand in their texts. -/
structure Element.Alike (e e' : Element) : Prop where
  /-- They stand in the same element. -/
  parent : e.parent = e'.parent
  /-- The same elements stand in them. -/
  children : e.children = e'.children
  /-- They have the same tag. -/
  tag : e.tag = e'.tag
  /-- They have the same attributes in the same order. -/
  attributes : (e.attributes.entries.map fun (key, a) => (key, a.name, a.value)) =
    e'.attributes.entries.map fun (key, a) => (key, a.name, a.value)
  /-- They are closed in the same way. -/
  closed : e.closed = e'.closed
  /-- One is closed by its start tag if the other is. -/
  selfClosed : e.selfClosed = e'.selfClosed
  /-- The choice of an alternative fails for both or for none. -/
  alternationFailed : e.alternationFailed = e'.alternationFailed
  /-- They have the same type. -/
  type : e.type = e'.type
  /-- They have the same definition. -/
  definition : e.definition = e'.definition

/-- Elements that are the same without their places are alike. -/
theorem Element.alike_of_unplaced {e e' : Element} (h : e.unplaced = e'.unplaced) :
    e.Alike e' where
  parent := congrArg (·.parent) h
  children := congrArg (·.children) h
  tag := congrArg (·.tag) h
  attributes := by
    have hentries := congrArg (·.attributes.entries.map fun (key, a) => (key, a.name, a.value)) h
    simpa [unplaced, OrderedMap.mapValues, Function.comp_def, Attribute.unplaced] using hentries
  closed := congrArg (·.closed) h
  selfClosed := congrArg (·.selfClosed) h
  alternationFailed := congrArg (·.alternationFailed) h
  type := congrArg (·.type) h
  definition := congrArg (·.definition) h

namespace Document

/-- Two documents that differ only in where things stand in their texts. -/
structure Alike (doc doc' : Document) : Prop where
  /-- They have as many elements. -/
  size : doc.size = doc'.size
  /-- Their elements are alike, one by one. -/
  elements : ∀ {id e e'}, doc.get? id = some e → doc'.get? id = some e' → e.Alike e'
  /-- The same is reported of them in the same order. -/
  diagnostics : (doc.diagnostics.map fun d => (d.code, d.severity, d.message)) =
    doc'.diagnostics.map fun d => (d.code, d.severity, d.message)

/-- Drafts that are the same without their places make documents that are alike. -/
theorem alike_of_unplaced {name text text' : String} {schema : Schema} {rootType : Option TypeId}
    (h : (Draft.ofText schema rootType text).unplaced =
      (Draft.ofText schema rootType text').unplaced) :
    (parse name text schema rootType).Alike (parse name text' schema rootType) := by
  have helements : (Draft.ofText schema rootType text).elements.map Element.unplaced =
      (Draft.ofText schema rootType text').elements.map Element.unplaced :=
    congrArg Draft.elements h
  refine ⟨?_, fun {id e e'} he he' => ?_, ?_⟩
  · have hsize := congrArg Array.size helements
    rwa [Array.size_map, Array.size_map] at hsize
  · -- What `Element.unplaced` keeps is what two elements have to share.
    have hget := congrArg (·[id]?) helements
    rw [Array.getElem?_map, Array.getElem?_map] at hget
    exact Element.alike_of_unplaced
      (Option.some.inj ((congrArg (·.map Element.unplaced) he).symm.trans
        (hget.trans (congrArg (·.map Element.unplaced) he'))))
  · have hlog : (Draft.ofText schema rootType text).log.toList.map Diagnostic.unplaced =
        (Draft.ofText schema rootType text').log.toList.map Diagnostic.unplaced := by
      have hlog := congrArg (·.log.toList) h
      simpa [Draft.unplaced, Log.unplaced, Log.toList] using hlog
    -- The checks at the end do not look at places.
    have hreports : (parse name text schema rootType).diagnostics.map Diagnostic.unplaced =
        (parse name text' schema rootType).diagnostics.map Diagnostic.unplaced := by
      unfold parse
      dsimp only
      rw [List.map_append, List.map_append, hlog, unplaced_validateElements,
        unplaced_validateElements, helements]
    have hplaced : ∀ ds : List Diagnostic,
        (ds.map Diagnostic.unplaced).map (fun d => (d.code, d.severity, d.message)) =
          ds.map fun d => (d.code, d.severity, d.message) := fun ds => by
      rw [List.map_map]
      rfl
    rw [← hplaced, hreports, hplaced]

/-- A text with something aside is drafted like the text without it. -/
theorem unplaced_ofText_aside {p c : String}
    (hp : (Scanner.ofText p).endState? = some .content) (hc : Aside c) (s : String)
    (schema : Schema) (rootType : Option TypeId) :
    (Draft.ofText schema rootType (p ++ c ++ s)).unplaced =
      (Draft.ofText schema rootType (p ++ s)).unplaced := by
  -- Both texts begin with the prefix, and the scanner reads on from there.
  have hwith : Scanner.ofText (p ++ c ++ s) =
      { Scanner.ofText p with rest := p.toList ++ (c.toList ++ s.toList) } := by
    rw [Scanner.ofText, String.toList_append, String.toList_append, List.append_assoc]
    rfl
  have hwithout : Scanner.ofText (p ++ s) =
      { Scanner.ofText p with rest := p.toList ++ s.toList } := by
    rw [Scanner.ofText, String.toList_append]
    rfl
  unfold Draft.ofText tokenize
  generalize Text.byteLength (p ++ c ++ s).toList = length
  generalize Text.byteLength (p ++ s).toList = length'
  obtain ⟨offset, hread⟩ :=
    (Draft.start length rootType).read_aside schema length hp hc s.toList
  obtain ⟨offset', hread'⟩ := (Draft.start length' rootType).read_append schema length' hp s.toList
  have hstart : (Draft.start length rootType).unplaced =
      (Draft.start length' rootType).unplaced := by
    rw [Draft.unplaced_start, Draft.unplaced_start]
  -- Behind the prefix the drafts differ in places only, and so they do in the end.
  have hfirst : ((Draft.start length rootType).read schema length (Scanner.ofText p)).unplaced =
      ((Draft.start length' rootType).read schema length' (Scanner.ofText p)).unplaced :=
    Draft.unplaced_read hstart (Scanner.ofText p) 0
  dsimp only
  rw [Draft.unplaced_finish, Draft.unplaced_finish, hwith, hwithout]
  refine congrArg (Draft.finish schema 0) ?_
  calc ((Draft.start length rootType).read schema length _).unplaced
      = (((Draft.start length rootType).read schema length (Scanner.ofText p)).read schema length
          ⟨s.toList, offset, .content⟩).unplaced := congrArg Draft.unplaced hread
    _ = (((Draft.start length' rootType).read schema length' (Scanner.ofText p)).read schema length'
          ⟨s.toList, offset', .content⟩).unplaced := Draft.unplaced_read hfirst _ offset'
    _ = ((Draft.start length' rootType).read schema length' _).unplaced :=
        (congrArg Draft.unplaced hread').symm

/-- Comments, headers and texts are invisible: where the scanner stands outside of tags behind the
first part of a text, they can be put in front of the rest, and the document is the same but for
its places. -/
theorem parse_aside {p c : String} (hp : (Scanner.ofText p).endState? = some .content)
    (hc : Aside c) (s name : String) (schema : Schema) (rootType : Option TypeId) :
    (parse name (p ++ c ++ s) schema rootType).Alike (parse name (p ++ s) schema rootType) :=
  alike_of_unplaced (unplaced_ofText_aside hp hc s schema rootType)

/-- A comment with an end tag in it stands behind a start tag that was broken off and an end tag
that does not fit, and in front of an end tag that is not finished. -/
theorem parse_aside_broken :
    (Scanner.ofText "<LayoutDesc><Frame Name=a <x></y>").endState? = some .content ∧
      Aside ("<!--" ++ " </LayoutDesc> " ++ "-->") ∧
      (parse "Main" ("<LayoutDesc><Frame Name=a <x></y>" ++
        ("<!--" ++ " </LayoutDesc> " ++ "-->") ++ "</x ></LayoutDesc") .layout
          (some Schema.Layout.file)).Alike
        (parse "Main" ("<LayoutDesc><Frame Name=a <x></y>" ++ "</x ></LayoutDesc") .layout
          (some Schema.Layout.file)) := by
  have hp : (Scanner.ofText "<LayoutDesc><Frame Name=a <x></y>").endState? = some .content := by
    decide +kernel
  have hc : Aside ("<!--" ++ " </LayoutDesc> " ++ "-->") := .comment " </LayoutDesc> " (by decide)
  exact ⟨hp, hc, parse_aside hp hc _ _ _ _⟩

end Document

end LayoutMarkup
