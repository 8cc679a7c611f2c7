import LayoutMarkup.Text.Span
import LayoutMarkup.Token.Basic
import Mathlib.Data.List.Basic
import Mathlib.Data.List.Flatten

/-!
# Attributes among tokens

Which attributes the tokens of a start tag write. Each name writes one, with the value that is
assigned to it: the first thing behind the name is `=`, the first thing behind that is a value, and
only blanks may stand in between (`Token.assigned?`). Other tokens write nothing
(`Written.ofTokens`).

Of the attributes with one name, whatever the case of its letters, the first one counts and the
others repeat it (`Written.sift`).

Tokens come one by one. A value goes to the name in front of it, and every other token leaves the
attributes so far as they are (`Written.ofTokens_append`).
-/

namespace LayoutMarkup

namespace Token

/-- The value that comes next, maybe behind blanks. -/
def value? : List Token → Option Token
  | [] => none
  | t :: behind =>
    match t.kind with
    | .blank => value? behind
    | .attributeValue => some t
    | _ => none

/-- The value that is assigned next: an `=` and a value, each maybe behind blanks. -/
def assigned? : List Token → Option Token
  | [] => none
  | t :: behind =>
    match t.kind with
    | .blank => assigned? behind
    | .assign => value? behind
    | _ => none

/-- What comes later gives no value to what stands in front of it, unless it begins with one. -/
theorem value?_append {more : List Token} (hvalue : value? more = none) (tokens : List Token) :
    value? (tokens ++ more) = value? tokens := by
  induction tokens with
  | nil => exact hvalue
  | cons t tokens ih =>
    rw [List.cons_append, value?, value?]
    split
    next => exact ih
    next => rfl
    next => rfl

/-- What comes later assigns nothing to what stands in front of it, unless it begins with a value or
with `=` and a value. -/
theorem assigned?_append {more : List Token} (hvalue : value? more = none)
    (hassigned : assigned? more = none) (tokens : List Token) :
    assigned? (tokens ++ more) = assigned? tokens := by
  induction tokens with
  | nil => exact hassigned
  | cons t tokens ih =>
    rw [List.cons_append, assigned?, assigned?]
    split
    next => exact ih
    next => exact value?_append hvalue tokens
    next => rfl

end Token

/-- An attribute as tokens write it. -/
structure Written where
  /-- The token of its name. -/
  name : Token
  /-- The token of its value, if one is assigned to it. -/
  value : Option Token
  deriving DecidableEq

namespace Written

/-- The name in small letters. -/
def key (w : Written) : String :=
  Text.lower w.name.text

/-- The name alone says which attribute it is. -/
@[simp]
theorem key_mk (name : Token) (value : Option Token) : key ⟨name, value⟩ = Text.lower name.text :=
  rfl

/-- The tokens of the attribute. -/
def tokens (w : Written) : List Token :=
  w.name :: w.value.toList

/-- The attributes that tokens write, in order. -/
def ofTokens : List Token → List Written
  | [] => []
  | t :: behind =>
    match t.kind with
    | .attributeName => ⟨t, Token.assigned? behind⟩ :: ofTokens behind
    | _ => ofTokens behind

/-- The attributes that tokens write apart from each other, when nothing goes from the later ones to
the earlier ones. -/
theorem ofTokens_append {more : List Token} (hvalue : Token.value? more = none)
    (hassigned : Token.assigned? more = none) (front : List Token) :
    ofTokens (front ++ more) = ofTokens front ++ ofTokens more := by
  induction front with
  | nil => rfl
  | cons t front ih =>
    rw [List.cons_append, ofTokens, ofTokens, Token.assigned?_append hvalue hassigned, ih]
    split <;> rfl

/-- A name writes an attribute behind the others, with the value that is assigned behind it. -/
theorem ofTokens_append_name {name : Token} (hname : name.kind = .attributeName)
    (front behind : List Token) :
    ofTokens (front ++ name :: behind) =
      ofTokens front ++ ⟨name, Token.assigned? behind⟩ :: ofTokens behind := by
  have hvalue : Token.value? (name :: behind) = none := by rw [Token.value?, hname]
  have hassigned : Token.assigned? (name :: behind) = none := by rw [Token.assigned?, hname]
  rw [ofTokens_append hvalue hassigned, ofTokens, hname]

/-- A token that is neither a name nor a value writes nothing. -/
theorem ofTokens_concat {t : Token} (hname : t.kind ≠ .attributeName)
    (hvalue : t.kind ≠ .attributeValue) (front : List Token) :
    ofTokens (front ++ [t]) = ofTokens front := by
  have hnone : Token.value? [t] = none := by
    rw [Token.value?]
    split <;> first | rfl | contradiction
  have hassigned : Token.assigned? [t] = none := by
    rw [Token.assigned?]
    split <;> rfl
  have hnothing : ofTokens [t] = [] := by
    rw [ofTokens]
    split
    next h => exact absurd h hname
    next => rfl
  rw [ofTokens_append hnone hassigned, hnothing, List.append_nil]

/-- Where there is no name, nothing is written. -/
theorem ofTokens_eq_nil {tokens : List Token} (h : ∀ t ∈ tokens, t.kind ≠ .attributeName) :
    ofTokens tokens = [] := by
  induction tokens with
  | nil => rfl
  | cons t tokens ih =>
    rw [ofTokens]
    split
    next hname => exact absurd hname (h t List.mem_cons_self)
    next => exact ih fun t' ht' => h t' (List.mem_cons_of_mem t ht')

/-- The tokens of the attributes are among those that write them, in the same order. A value that
comes next has not been used. -/
theorem tokens_sublist (tokens : List Token) :
    ((ofTokens tokens).flatMap Written.tokens).Sublist tokens ∧
      ((Token.assigned? tokens).toList ++ (ofTokens tokens).flatMap Written.tokens).Sublist tokens ∧
      ((Token.value? tokens).toList ++ (ofTokens tokens).flatMap Written.tokens).Sublist
        tokens := by
  induction tokens with
  | nil => exact ⟨.slnil, .slnil, .slnil⟩
  | cons t behind ih =>
    obtain ⟨hplain, hassigned, hvalue⟩ := ih
    rw [ofTokens, Token.assigned?, Token.value?]
    cases t.kind with
    | attributeName =>
      have hname := hassigned.cons_cons t
      exact ⟨hname, hname, hname⟩
    | blank => exact ⟨hplain.cons t, hassigned.cons t, hvalue.cons t⟩
    | assign => exact ⟨hplain.cons t, hvalue.cons t, hplain.cons t⟩
    | attributeValue => exact ⟨hplain.cons t, hplain.cons t, hplain.cons_cons t⟩
    | _ => exact ⟨hplain.cons t, hplain.cons t, hplain.cons t⟩

/-- The tokens of one attribute are among them too. -/
theorem sublist_of_mem {w : Written} {tokens : List Token} (h : w ∈ ofTokens tokens) :
    w.tokens.Sublist tokens := by
  have hone := (List.singleton_sublist.2 h).flatMap Written.tokens
  rw [List.flatMap_singleton] at hone
  exact hone.trans (tokens_sublist tokens).1

/-! ## Repeated attributes -/

/-- The attributes whose names come for the first time, and those whose names are among the ones in
front of them or among some that were seen before. -/
def sift (seen : List String) : List Written → List Written × List Written
  | [] => ([], [])
  | w :: more =>
    if w.key ∈ seen then ((sift seen more).1, w :: (sift seen more).2)
    else (w :: (sift (w.key :: seen) more).1, (sift (w.key :: seen) more).2)

/-- The attributes whose names come for the first time. -/
def firsts (ws : List Written) : List Written :=
  (sift [] ws).1

/-- The attributes whose names came before. -/
def repeats (ws : List Written) : List Written :=
  (sift [] ws).2

/-- One more attribute comes for the first time, unless there is one of its name. -/
theorem sift_concat (seen : List String) (ws : List Written) (w : Written) :
    sift seen (ws ++ [w]) =
      if w.key ∈ seen ∨ w.key ∈ ws.map key then
        ((sift seen ws).1, (sift seen ws).2 ++ [w])
      else ((sift seen ws).1 ++ [w], (sift seen ws).2) := by
  induction ws generalizing seen with
  | nil =>
    rw [List.nil_append, sift]
    simp [sift]
  | cons first ws ih =>
    rw [List.cons_append, sift, sift]
    -- The first attribute counts as seen from then on if it was not before, and `hmem` says that
    -- this asks for the same names.
    by_cases hfirst : first.key ∈ seen
    · have hmem : (w.key ∈ seen ∨ w.key ∈ (first :: ws).map key) ↔
          w.key ∈ seen ∨ w.key ∈ ws.map key := by
        rw [List.map_cons, List.mem_cons]
        constructor
        · rintro (h | h | h)
          · exact .inl h
          · exact .inl (h ▸ hfirst)
          · exact .inr h
        · exact Or.imp_right .inr
      rw [if_pos hfirst, if_pos hfirst, ih, if_congr hmem rfl rfl]
      split <;> rfl
    · have hmem : (w.key ∈ seen ∨ w.key ∈ (first :: ws).map key) ↔
          w.key ∈ first.key :: seen ∨ w.key ∈ ws.map key := by
        rw [List.map_cons, List.mem_cons, List.mem_cons]
        tauto
      rw [if_neg hfirst, if_neg hfirst, ih, if_congr hmem rfl rfl]
      split <;> rfl

/-- One more attribute is a first one, or else a repeated one. -/
theorem firsts_concat (ws : List Written) (w : Written) :
    firsts (ws ++ [w]) = if w.key ∈ ws.map key then firsts ws else firsts ws ++ [w] := by
  unfold firsts
  rw [sift_concat, if_congr (or_iff_right List.not_mem_nil) rfl rfl]
  split <;> rfl

/-- One more attribute is a repeated one, or else a first one. -/
theorem repeats_concat (ws : List Written) (w : Written) :
    repeats (ws ++ [w]) = if w.key ∈ ws.map key then repeats ws ++ [w] else repeats ws := by
  unfold repeats
  rw [sift_concat, if_congr (or_iff_right List.not_mem_nil) rfl rfl]
  split <;> rfl

/-- The first attributes are some of all. -/
theorem sift_sublist (seen : List String) (ws : List Written) : (sift seen ws).1.Sublist ws := by
  fun_induction sift seen ws with
  | case1 seen => exact .slnil
  | case2 seen w more hmem ih => exact ih.cons w
  | case3 seen w more hmem ih => exact ih.cons_cons w

/-- Every name that was not seen before comes for a first time. -/
theorem mem_map_sift {seen : List String} {ws : List Written} {k : String} :
    k ∈ (sift seen ws).1.map key ↔ k ∈ ws.map key ∧ k ∉ seen := by
  fun_induction sift seen ws with
  | case1 seen => simp
  | case2 seen w more hmem ih =>
    rw [ih, List.map_cons, List.mem_cons]
    grind
  | case3 seen w more hmem ih =>
    rw [List.map_cons, List.mem_cons, ih, List.map_cons, List.mem_cons, List.mem_cons]
    grind

end Written

end LayoutMarkup
