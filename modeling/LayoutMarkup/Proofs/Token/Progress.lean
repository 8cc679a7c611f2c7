import LayoutMarkup.Proofs.Token.Tiling

/-!
# Progress

A scan as a loop that nothing bounds in advance: round after round it makes the move of the state,
and every problem on the way is reported into one place, where a later report covers an earlier one
(`Scanner.rounds`). `Scanner.scanOrSkip` adds an emergency exit, which skips a character if a token
without characters comes up before the end of the text.

Neither is needed. A turn leads to a state of lower rank, so the loop ends within three rounds; a
turn that finds a problem leads outside of tags, where nothing is found, so there is at most one
report; and a move takes characters, so the exit is never used. Hence the loop with its exit is the
scan that ends by its rank (`Scanner.advances_scan`).
-/

namespace LayoutMarkup.Scanner

/-! ## The loop -/

/-- What the rounds of one scan come to. -/
structure Pass where
  /-- The number of turns in front of the token. -/
  turns : Nat
  /-- All that was reported, in order. -/
  reports : List Diagnostic
  /-- The token that was taken. -/
  token : Token
  /-- The scanner behind the token. -/
  after : Scanner
  deriving DecidableEq, Repr

/-- Makes moves until a token is taken. There is no result if that needs more than `limit` rounds.
-/
def rounds : (limit : Nat) → Scanner → Option Pass
  | 0, _ => none
  | limit + 1, s =>
    match s.state.move s.rest with
    | .take kind lexeme rest next cause =>
      let span : Span := ⟨s.offset, s.offset + Text.byteLength lexeme⟩
      some { turns := 0, reports := (cause.map (·.on span)).toList
             token := ⟨kind, span, String.ofList lexeme⟩, after := ⟨rest, span.stop, next⟩ }
    | .turn next cause =>
      (rounds limit { s with state := next }).map fun p =>
        { p with turns := p.turns + 1
                 reports := (cause.map (·.on (.point s.offset))).toList ++ p.reports }

/-- The step that a pass makes. Of several reports the last one is seen. -/
def Pass.scanned (p : Pass) : Scanned :=
  ⟨p.token, p.reports.getLast?, p.after⟩

/-- The step that a pass makes if it takes nothing before the end of the text: one character is
skipped, which has no place where it stands. -/
def Pass.skipping (p : Pass) (s : Scanner) : Scanned :=
  let skipped := s.rest.take 1
  let span : Span := ⟨s.offset, s.offset + Text.byteLength skipped⟩
  { token := ⟨.unknown, span, String.ofList skipped⟩
    diagnostic := p.reports.getLast?
    after := ⟨s.rest.drop 1, span.stop, p.after.state⟩ }

/-- A step of the scanner in at most `limit` rounds, with an emergency exit. -/
def scanOrSkip (limit : Nat) (s : Scanner) : Option Scanned :=
  (s.rounds limit).map fun p =>
    if p.token.kind ≠ .endOfText ∧ p.after.offset = s.offset then p.skipping s else p.scanned

/-! ## Rounds and ranks -/

/-- Outside of tags characters are taken at once, and nothing is found. -/
theorem State.exists_take_of_content (cs : List Char) :
    ∃ kind lexeme rest next, content.move cs = .take kind lexeme rest next none := by
  cases cs with
  | nil => exact ⟨_, _, _, _, rfl⟩
  | cons c rest =>
    simp only [move]
    unfold moveContent
    split <;> exact ⟨_, _, _, _, rfl⟩

/-- Outside of tags one round is enough, without a report. -/
theorem exists_rounds_of_content {s : Scanner} (h : s.state = .content) :
    ∃ p, s.rounds 1 = some p ∧ p.reports = [] := by
  obtain ⟨kind, lexeme, rest, next, hmove⟩ := State.exists_take_of_content s.rest
  rw [rounds, h, hmove]
  exact ⟨_, rfl, rfl⟩

/-- A token is taken within the rank of the state, with one report at most, and it is the token that
the scan takes. -/
theorem exists_rounds (offset : Nat) (cs : List Char) (state : State)
    (pending : Option Diagnostic) :
    ∃ p : Pass, (∀ limit, state.rank < limit → rounds limit ⟨cs, offset, state⟩ = some p) ∧
      p.turns ≤ state.rank ∧ p.reports.length ≤ 1 ∧
      advance offset cs state pending = ⟨p.token, p.reports.getLast?.or pending, p.after⟩ := by
  fun_induction advance offset cs state pending with
  | case1 state pending kind lexeme rest next cause hmove span =>
    refine ⟨⟨0, (cause.map (·.on span)).toList, ⟨kind, span, String.ofList lexeme⟩,
      ⟨rest, span.stop, next⟩⟩, fun limit hlimit => ?_, Nat.zero_le _, ?_, ?_⟩
    · -- One round takes the token.
      obtain ⟨limit, rfl⟩ := Nat.exists_eq_succ_of_ne_zero (Nat.ne_zero_of_lt hlimit)
      simp only [rounds, hmove]
      rfl
    · cases cause <;> simp
    · cases cause <;> rfl
  | case2 state pending next cause hmove ih =>
    obtain ⟨p, hrounds, hturns, hreports, hadvance⟩ := ih
    have hrank := State.rank_lt_of_turn hmove
    -- A turn with a report leads outside of tags, and nothing is reported there.
    have hquiet : cause.isSome = true → p.reports = [] := by
      intro hcause
      obtain ⟨cause, rfl⟩ := Option.isSome_iff_exists.1 hcause
      obtain rfl := State.next_of_turn hmove
      obtain ⟨q, hq, hnone⟩ := exists_rounds_of_content (s := ⟨cs, offset, .content⟩) rfl
      obtain rfl := Option.some.inj ((hrounds 1 Nat.one_pos).symm.trans hq)
      exact hnone
    refine ⟨{ p with turns := p.turns + 1
                     reports := (cause.map (·.on (.point offset))).toList ++ p.reports },
      fun limit hlimit => ?_, by dsimp only; omega, ?_, ?_⟩
    · obtain ⟨limit, rfl⟩ := Nat.exists_eq_succ_of_ne_zero (Nat.ne_zero_of_lt hlimit)
      have hlimit' : next.rank < limit := by omega
      simp only [rounds, hmove, hrounds limit hlimit']
      rfl
    · cases cause with
      | none => simpa using hreports
      | some cause => simp [hquiet rfl]
    · rw [hadvance]
      cases cause with
      | none => simp
      | some cause => simp [hquiet rfl]

/-- No state has a rank above two. -/
theorem State.rank_le (state : State) : state.rank ≤ 2 := by
  cases state <;> decide

/-! ## The scan -/

/-- What the loop does with a scanner that stands in a text. -/
structure Pass.Advances (text : List Char) (s : Scanner) (p : Pass) : Prop where
  /-- The loop ends, three rounds are enough, and the limit has no part in the result. -/
  ends : ∀ limit, 3 ≤ limit → s.rounds limit = some p
  /-- At most two turns come before the token. -/
  turns_le : p.turns ≤ 2
  /-- The end of the text is taken where no character is left, and nowhere else. -/
  kind_iff : p.token.kind = .endOfText ↔ s.rest = []
  /-- The characters of the token are taken off the rest, and before the end of the text there are
  some. -/
  lexeme : ∃ lexeme, s.rest = lexeme ++ p.after.rest ∧ p.token.text = String.ofList lexeme ∧
    p.after.offset = s.offset + Text.byteLength lexeme ∧ (s.rest ≠ [] → lexeme ≠ [])
  /-- The scanner stays between the characters of the text. -/
  within : p.after.Within text
  /-- Before the end of the text it does not stay where it was, so the exit is not taken. -/
  moves : p.token.kind ≠ .endOfText → s.offset < p.after.offset
  /-- At most one problem is reported. -/
  reports_le : p.reports.length ≤ 1
  /-- All that is reported is found by the scan. -/
  reports_eq : p.reports = s.scan.diagnostic.toList
  /-- The loop with its exit is the scan. -/
  scan_eq : ∀ limit, 3 ≤ limit → s.scanOrSkip limit = some s.scan

/-- From every place between the characters of a text, and in every state, the loop ends within
three rounds. It takes the end of the text only there, and characters before it, so its exit is not
taken; it reports at most one problem, so none is covered by a later one. -/
theorem advances_scan (front rest : List Char) (state : State) :
    ∃ p : Pass, p.Advances (front ++ rest) ⟨rest, Text.byteLength front, state⟩ := by
  obtain ⟨p, hrounds, hturns, hreports, hadvance⟩ :=
    exists_rounds (Text.byteLength front) rest state none
  have hrank := state.rank_le
  generalize hs : (⟨rest, Text.byteLength front, state⟩ : Scanner) = s at hrounds ⊢
  have hwithin : s.Within (front ++ rest) := hs ▸ ⟨front, rfl, rfl⟩
  have hscan : s.scan = p.scanned := by
    subst hs
    rw [scan, hadvance, Option.or_none]
    rfl
  have hends : ∀ limit, 3 ≤ limit → s.rounds limit = some p := fun limit hlimit =>
    hrounds limit (by omega)
  have htoken : s.scan.token = p.token := by rw [hscan]; rfl
  have hafter : s.scan.after = p.after := by rw [hscan]; rfl
  have hmoves : p.token.kind ≠ .endOfText → s.offset < p.after.offset := by
    rw [← htoken, ← hafter]
    exact offset_lt_scan
  -- What the scan does, the loop does, since they come to the same.
  obtain ⟨lexeme, happ, htext, hspan, hnil⟩ := s.scan_spec.lexeme
  have hoffset := s.scan_spec.offset
  rw [hspan, hafter] at hoffset
  rw [hafter] at happ
  rw [htoken] at htext
  exact ⟨p,
    { ends := hends
      turns_le := Nat.le_trans hturns hrank
      kind_iff := by rw [← htoken]; exact s.kind_scan_iff
      lexeme := ⟨lexeme, happ, htext, hoffset, fun hne hempty => hne (hnil.1 hempty)⟩
      within := hafter ▸ hwithin.scan
      moves := hmoves
      reports_le := hreports
      reports_eq := by
        rw [hscan, Pass.scanned]
        -- With one report at most, the last one is all of them.
        rcases Nat.le_one_iff_eq_zero_or_eq_one.1 hreports with hnone | hone
        · rw [List.length_eq_zero_iff.1 hnone]
          rfl
        · obtain ⟨x, hx⟩ := List.length_eq_one_iff.1 hone
          rw [hx]
          rfl
      scan_eq := fun limit hlimit => by
        rw [scanOrSkip, hends limit hlimit, Option.map_some, hscan]
        refine congrArg some (if_neg fun hskip => ?_)
        exact Nat.ne_of_gt (hmoves hskip.1) hskip.2 }⟩

end LayoutMarkup.Scanner
