import LayoutMarkup.Proofs.Token.Stability
import LayoutMarkup.Proofs.Token.Tiling
import Mathlib.Data.List.Nodup

/-!
# Succession

Which token comes behind which. Of two tokens in a row the second one is what the scanner takes
where the first one has left it (`Scanner.exists_scan_of_infix`), so what may come behind a token is
what the state behind it takes.

Behind `<` and behind `</` there should be a name. What is there instead is mostly a problem that
the scanner finds, and all that it finds are errors (`Scanner.grave_scan`). Yet some continuations
are no problem to it: behind `<` the name of an attribute or a `>` (`Scanner.kind_of_tagOpened`),
behind `</` a `>` or the end of the text (`Scanner.kind_of_endTagOpened`).

A property of the scanner that also speaks of the tokens so far is carried along a run by
`Scanner.run_history`.
-/

namespace LayoutMarkup

namespace Scanner

/-! ## Runs -/

/-- A run begins with the step of its scanner. -/
theorem exists_run_eq (s : Scanner) : ∃ more, s.run = s.scan :: more := by
  rw [run]
  split
  next => exact ⟨[], rfl⟩
  next => exact ⟨s.scan.after.run, rfl⟩

/-- Of two tokens in a row the second one is taken where the first one has left the scanner. -/
theorem exists_scan_of_infix {s : Scanner} {a b : Token}
    (h : [a, b] <:+: s.run.map Scanned.token) :
    ∃ s' : Scanner, s'.scan ∈ s.run ∧ s'.scan.after.scan ∈ s.run ∧ a = s'.scan.token ∧
      b = s'.scan.after.scan.token := by
  fun_induction run s with
  | case1 s hnil =>
    have hlen := h.length_le
    exact absurd hlen (by simp)
  | case2 s hne ih =>
    obtain ⟨more, hmore⟩ := s.scan.after.exists_run_eq
    rw [List.map_cons, List.infix_cons_iff] at h
    rcases h with hfirst | hlater
    · rw [hmore, List.map_cons] at hfirst
      obtain ⟨ha, htail⟩ := List.cons_prefix_cons.1 hfirst
      obtain ⟨hb, -⟩ := List.cons_prefix_cons.1 htail
      refine ⟨s, List.mem_cons_self, List.mem_cons_of_mem _ ?_, ha, hb⟩
      rw [hmore]
      exact List.mem_cons_self
    · obtain ⟨s', hs', hafter, ha, hb⟩ := ih hlater
      exact ⟨s', List.mem_cons_of_mem _ hs', List.mem_cons_of_mem _ hafter, ha, hb⟩

/-- What every step in front of the end of the text keeps, with the tokens so far, holds when only
the last token is left. -/
theorem run_history {β : Type} {f : β → Scanned → β} {P : List Token → Scanner → β → Prop}
    (step : ∀ {past s b}, s.rest ≠ [] → P past s b →
      P (past ++ [s.scan.token]) s.scan.after (f b s.scan))
    {past : List Token} {s : Scanner} {b : β} (h : P past s b) :
    ∃ past' s' b', s'.rest = [] ∧ P past' s' b' ∧
      past ++ s.run.map Scanned.token = past' ++ [s'.scan.token] ∧
        s.run.foldl f b = f b' s'.scan := by
  fun_induction run s generalizing past b with
  | case1 s hnil => exact ⟨past, s, b, hnil, h, rfl, rfl⟩
  | case2 s hne ih =>
    obtain ⟨past', s', b', hnil, hP, hpast, hfold⟩ := ih (step hne h)
    refine ⟨past', s', b', hnil, hP, ?_, hfold⟩
    rw [← hpast, List.append_assoc]
    rfl

/-- It holds in front of every token of the run, with the tokens in front of that. -/
theorem front_history {β : Type} {f : β → Scanned → β} {P : List Token → Scanner → β → Prop}
    (step : ∀ {past s b}, s.rest ≠ [] → P past s b →
      P (past ++ [s.scan.token]) s.scan.after (f b s.scan))
    {past : List Token} {s : Scanner} {b : β} (h : P past s b) {front : List Scanned}
    {sc : Scanned} (hfront : front ++ [sc] <+: s.run) :
    ∃ s', sc = s'.scan ∧ P (past ++ front.map Scanned.token) s' (front.foldl f b) := by
  -- Over the run, where what came so far grows by the token of each round. An empty front stops at
  -- the scanner of this round.
  fun_induction run s generalizing past b front with
  | case1 s hnil =>
    cases front with
    | nil =>
      obtain ⟨rfl, -⟩ := List.cons_prefix_cons.1 hfront
      exact ⟨s, rfl, by simpa using h⟩
    | cons x front =>
      obtain ⟨-, hnone⟩ := List.cons_prefix_cons.1 hfront
      exact absurd (List.prefix_nil.1 hnone) (by simp)
  | case2 s hne ih =>
    cases front with
    | nil =>
      obtain ⟨rfl, -⟩ := List.cons_prefix_cons.1 hfront
      exact ⟨s, rfl, by simpa using h⟩
    | cons x front =>
      obtain ⟨rfl, hrest⟩ := List.cons_prefix_cons.1 hfront
      obtain ⟨s', hs', hP⟩ := ih (step hne h) hrest
      exact ⟨s', hs', by simpa using hP⟩

/-- No token of a run begins in front of its scanner. -/
theorem offset_le_of_mem_run {s : Scanner} {t : Token} (h : t ∈ s.run.map Scanned.token) :
    s.offset ≤ t.span.start := by
  fun_induction run s with
  | case1 s hnil =>
    rw [List.map_singleton, List.mem_singleton] at h
    rw [h, s.span_scan]
  | case2 s hne ih =>
    rcases List.mem_cons.1 h with rfl | hlater
    · rw [s.span_scan]
    · exact Nat.le_trans s.offset_le_scan (ih hlater)

/-- The tokens of a text cover it. -/
theorem tiles_ofText (text : String) :
    Tiles text.toList 0 text.toList ((tokenize text).map Scanned.token) :=
  tiles_run (within_ofText text)

/-- At the end of the text the last token stands there. -/
theorem token_scan_of_end {text : List Char} {s : Scanner} (h : s.Within text)
    (hnil : s.rest = []) :
    s.scan.token = ⟨.endOfText, .point (Text.byteLength text), ""⟩ :=
  Option.some_inj.1 (tiles_last h hnil).last

/-- Each token that another one follows has characters, and ends in front of that. -/
theorem pairwise_run (s : Scanner) :
    (s.run.map Scanned.token).Pairwise fun a b =>
      a.span.start < a.span.stop ∧ a.span.stop ≤ b.span.start := by
  fun_induction run s with
  | case1 s hnil => exact List.pairwise_singleton _ _
  | case2 s hne ih =>
    refine List.pairwise_cons.2 ⟨fun t ht => ?_, ih⟩
    rw [s.span_scan]
    refine ⟨offset_lt_scan ?_, offset_le_of_mem_run ht⟩
    rcases s.scan_spec.outcome with ⟨hnil, -⟩ | ⟨m, -, hmem⟩
    · exact absurd hnil hne
    · exact kind_ne_of_mem_outcomes hmem

/-- Tokens of a run that begin at the same offset are the same. -/
theorem eq_of_start_eq {s : Scanner} {a b : Token} (ha : a ∈ s.run.map Scanned.token)
    (hb : b ∈ s.run.map Scanned.token) (h : a.span.start = b.span.start) : a = b := by
  have hstarts : ((s.run.map Scanned.token).map (·.span.start)).Pairwise (· < ·) :=
    List.pairwise_map.2 (s.pairwise_run.imp fun ⟨hlt, hle⟩ => Nat.lt_of_lt_of_le hlt hle)
  exact List.inj_on_of_nodup_map (hstarts.imp Nat.ne_of_lt) ha hb h

/-! ## Errors -/

/-- If something was found, it is an error. -/
def Grave (found : Option Diagnostic) : Prop :=
  ∀ x ∈ found, x.severity = .error

/-- What is about reading tokens is an error. -/
theorem severity_of_isLexical {cause : Cause} (h : cause.code.isLexical = true) :
    cause.severity = .error := by
  cases cause <;> first | rfl | exact Bool.noConfusion h

/-- What a move finds is an error. -/
theorem Grave.or {pending : Option Diagnostic} (h : Grave pending) (state : State)
    (cs : List Char) (span : Span) :
    Grave (((state.move cs).cause?.map (·.on span)).or pending) := by
  have hmove := state.isLexical_of_move cs
  cases hcause : (state.move cs).cause? with
  | none => exact h
  | some cause =>
    rintro x ⟨⟩
    exact severity_of_isLexical (hmove cause hcause)

/-- What is found until a token is taken is an error. -/
theorem grave_advance (offset : Nat) (cs : List Char) (state : State)
    {pending : Option Diagnostic} (h : Grave pending) :
    Grave (advance offset cs state pending).diagnostic := by
  fun_induction advance offset cs state pending with
  | case1 state pending kind lexeme rest next cause hm span =>
    have hfound := h.or state cs span
    rwa [hm] at hfound
  | case2 state pending next cause hm ih =>
    have hfound := h.or state cs (.point offset)
    rw [hm] at hfound
    exact ih hfound

/-- What a step of the scanner finds is an error. -/
theorem grave_scan (s : Scanner) : Grave s.scan.diagnostic :=
  grave_advance s.offset s.rest s.state fun _ hx => nomatch hx

/-- What was found is not forgotten until a token is taken. -/
theorem pending_eq_none {offset : Nat} {cs : List Char} {state : State}
    {pending : Option Diagnostic} (h : (advance offset cs state pending).diagnostic = none) :
    pending = none := by
  fun_induction advance offset cs state pending with
  | case1 state pending kind lexeme rest next cause hm span => exact (Option.or_eq_none_iff.1 h).2
  | case2 state pending next cause hm ih => exact (Option.or_eq_none_iff.1 (ih h)).2

/-- At the end of the text nothing is found. -/
theorem diagnostic_scan_of_nil {s : Scanner} (h : s.rest = []) : s.scan.diagnostic = none := by
  have hscan : s.scan = advance s.offset [] s.state none := by rw [scan, h]
  rw [hscan, advance_of_take rfl]
  rfl

/-! ## Behind brackets -/

/-- A `<` that is followed by a slash is not taken alone. -/
theorem State.head?_of_take {state next : State} {cs lexeme rest : List Char}
    {cause : Option Cause} (h : state.move cs = .take .tagOpen lexeme rest next cause) :
    rest.head? ≠ some '/' := by
  cases cs with
  | nil =>
    rw [move] at h
    cases h
  | cons c cs =>
    have hfollows := state.move_follows c cs
    rw [h] at hfollows
    cases state with
    -- Only between the tags a `<` is taken, and there `</` was asked for before.
    | content =>
      simp only [move] at h
      unfold moveContent at h
      split at h
      next => cases h
      next => cases h
      next => cases h
      next hcomment hheader hend =>
        cases h
        intro hhead
        obtain ⟨more, hmore⟩ := List.head?_eq_some_iff.1 hhead
        exact hend more hmore
      next => cases h
    | _ => simp [Follows, outcomes] at hfollows

/-- Turning until a `<` is taken leaves no slash behind it. -/
theorem head?_after_advance {offset : Nat} {cs : List Char} {state : State}
    {pending : Option Diagnostic} (h : (advance offset cs state pending).token.kind = .tagOpen) :
    (advance offset cs state pending).after.rest.head? ≠ some '/' := by
  fun_induction advance offset cs state pending with
  | case1 state pending kind lexeme rest next cause hm span =>
    obtain rfl : kind = .tagOpen := h
    exact State.head?_of_take hm
  | case2 state pending next cause hm ih => exact ih h

/-- Behind a `<` that was taken there is no slash. -/
theorem head?_after_tagOpen {s : Scanner} (h : s.scan.token.kind = .tagOpen) :
    s.scan.after.rest.head? ≠ some '/' :=
  head?_after_advance h

/-- A bracket that opens a tag leads behind it. -/
theorem State.next_of_open {m next : State} {kind : TokenKind} (h : (kind, next) ∈ m.outcomes) :
    (kind = .tagOpen → next = tagOpened) ∧ (kind = .endTagOpen → next = endTagOpened) := by
  cases m <;> simp only [outcomes, List.mem_cons, Prod.mk.injEq, List.not_mem_nil] at h <;> grind

/-- Taking `<` leads behind `<`. -/
theorem state_after_tagOpen {s : Scanner} (h : s.scan.token.kind = .tagOpen) :
    s.scan.after.state = .tagOpened := by
  rcases s.scan_spec.outcome with ⟨-, hkind, -⟩ | ⟨m, -, hmem⟩
  · exact TokenKind.noConfusion (hkind.symm.trans h)
  · exact (State.next_of_open hmem).1 h

/-- Taking `</` leads behind `</`. -/
theorem state_after_endTagOpen {s : Scanner} (h : s.scan.token.kind = .endTagOpen) :
    s.scan.after.state = .endTagOpened := by
  rcases s.scan_spec.outcome with ⟨-, hkind, -⟩ | ⟨m, -, hmem⟩
  · exact TokenKind.noConfusion (hkind.symm.trans h)
  · exact (State.next_of_open hmem).2 h

/-- Behind a bracket there is a name, or a blank, which is a problem, or else the scanner goes on
inside the tag. -/
theorem advance_name {state inner : State} {kind : TokenKind} {cause : Cause} {c : Char}
    {rest : List Char} (hmove : state.move (c :: rest) = State.moveName kind inner cause c rest)
    {offset : Nat} (hfound : (advance offset (c :: rest) state none).diagnostic = none) :
    (advance offset (c :: rest) state none).token.kind = kind ∨
      Text.isBlank c = false ∧
        advance offset (c :: rest) state none = advance offset (c :: rest) inner none := by
  unfold State.moveName at hmove
  split at hmove
  next =>
    rw [advance_of_take hmove]
    exact .inl rfl
  next =>
    split at hmove
    next =>
      rw [advance_of_take hmove] at hfound
      exact nomatch hfound
    next hblank =>
      rw [advance_of_turn hmove]
      exact .inr ⟨Bool.eq_false_iff.2 hblank, rfl⟩

/-- A `<` inside a tag is a problem, and it stays one until a token is taken. -/
theorem ne_of_missingBracket {state : State} {c : Char} {rest : List Char}
    (hmove : ∀ rest, state.move ('<' :: rest) = .turn .content (some .missingBracket))
    {offset : Nat} (hfound : (advance offset (c :: rest) state none).diagnostic = none) :
    c ≠ '<' := by
  rintro rfl
  rw [advance_of_turn (hmove rest)] at hfound
  exact nomatch pending_eq_none hfound

/-- Where the scanner finds nothing behind a `<`, there is a tag name, the name of an attribute, a
`>` or the end of the text. -/
theorem kind_of_tagOpened {s : Scanner} (hstate : s.state = .tagOpened)
    (hslash : s.rest.head? ≠ some '/') (hfound : s.scan.diagnostic = none) :
    s.scan.token.kind = .tagName ∨ s.scan.token.kind = .attributeName ∨
      s.scan.token.kind = .tagClose ∨ s.scan.token.kind = .endOfText := by
  obtain ⟨_ | ⟨c, rest⟩, offset, state⟩ := s
  · rw [token_scan_of_nil rfl]
    exact .inr (.inr (.inr rfl))
  obtain rfl : state = .tagOpened := hstate
  unfold scan at hfound ⊢
  dsimp only at hfound ⊢
  -- The name, or what a state inside the tag does with the same character.
  rcases advance_name rfl hfound with hname | ⟨hblank, hturn⟩
  · exact .inl hname
  rw [hturn] at hfound ⊢
  have hless : c ≠ '<' := ne_of_missingBracket (fun _ => rfl) hfound
  by_cases hgreater : c = '>'
  · subst hgreater
    have hmove : State.inTag.move ('>' :: rest) = .take .tagClose ['>'] rest .content none := rfl
    rw [advance_of_take hmove]
    exact .inr (.inr (.inl rfl))
  have hclose : ¬ ['/', '>'] <+: c :: rest := fun hprefix =>
    hslash (congrArg some (List.cons_prefix_cons.1 hprefix).1.symm)
  have hmove := State.move_inTag hgreater hless hclose
  rw [hblank, if_neg Bool.false_ne_true] at hmove
  by_cases hname : isAttributeNameChar c = true
  · rw [if_pos hname] at hmove
    rw [advance_of_take hmove]
    exact .inr (.inl rfl)
  · -- Anything else is stray.
    rw [if_neg hname] at hmove
    rw [advance_of_take hmove] at hfound
    exact nomatch hfound

/-- Where the scanner finds nothing behind a `</`, there is a name, a `>` or the end of the text. -/
theorem kind_of_endTagOpened {s : Scanner} (hstate : s.state = .endTagOpened)
    (hfound : s.scan.diagnostic = none) :
    s.scan.token.kind = .endTagName ∨ s.scan.token.kind = .endTagClose ∨
      s.scan.token.kind = .endOfText := by
  obtain ⟨_ | ⟨c, rest⟩, offset, state⟩ := s
  · rw [token_scan_of_nil rfl]
    exact .inr (.inr rfl)
  obtain rfl : state = .endTagOpened := hstate
  unfold scan at hfound ⊢
  dsimp only at hfound ⊢
  -- The name, or what a state inside the end tag does with the same character.
  rcases advance_name rfl hfound with hname | ⟨hblank, hturn⟩
  · exact .inl hname
  rw [hturn] at hfound ⊢
  have hless : c ≠ '<' := ne_of_missingBracket (fun _ => rfl) hfound
  by_cases hgreater : c = '>'
  · subst hgreater
    have hmove : State.inEndTag.move ('>' :: rest) =
        .take .endTagClose ['>'] rest .content none := rfl
    rw [advance_of_take hmove]
    exact .inr (.inl rfl)
  · -- Anything else is stray.
    have hmove : State.inEndTag.move (c :: rest) =
        .run .unknown (fun c => c != '>' && c != '<') (c :: rest) .inEndTag
          (some .strayEndTagContent) := by
      show State.moveEndTag c rest = _
      unfold State.moveEndTag
      split
      next => exact absurd rfl hgreater
      next => exact absurd rfl hless
      next => exact if_neg (Bool.eq_false_iff.1 hblank)
    rw [advance_of_take hmove] at hfound
    exact nomatch hfound

end Scanner

end LayoutMarkup
