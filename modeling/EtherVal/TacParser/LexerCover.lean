import EtherVal.TacParser.Parser

/-!
# Does the lexer read the whole text?

The tokens of a text, together with the white space and the horizontal lines between them, give
the text back, unless a `-` stands without `>`: there the lexer stops as if the text had ended.
-/

namespace EtherVal.TacParser
open EtherVal.Lib List

variable {l : Lexer} {c : Char}

inductive Piece where
  | token (tok : Token)
  | skipped (text : GoString)

namespace Piece

def text : Piece → GoString
  | token tok => tok.val
  | skipped text => text

def token? : Piece → Option Token
  | token tok => some tok
  | skipped _ => none

def Droppable (s : GoString) : Prop :=
  (∃ c, s = [c] ∧ isSpace c = true) ∨ (2 ≤ s.length ∧ ∀ c ∈ s, c = '=')

def Sound : Piece → Prop
  | token _ => True
  | skipped s => Droppable s

end Piece

def Covers (toks : List Token) (input : GoString) : Prop :=
  ∃ pieces : List Piece, pieces.filterMap Piece.token? = toks ∧ (∀ p ∈ pieces, p.Sound) ∧
    pieces.flatMap Piece.text = input

def arrowsOnly : GoString → Bool
  | [] => true
  | c :: rest => (c ≠ '-' || rest.head? = some '>') && arrowsOnly rest

variable {s : GoString}

theorem arrowsOnly_append {t : GoString} (hs : arrowsOnly s = true) (ht : arrowsOnly t = true) :
    arrowsOnly (s ++ t) = true := by
  induction s with
  | nil => exact ht
  | cons c s ih =>
    rw [arrowsOnly, Bool.and_eq_true] at hs
    rw [cons_append, arrowsOnly, Bool.and_eq_true]
    refine ⟨?_, ih hs.2⟩
    cases s with
    | nil =>
      have hc : c ≠ '-' := by simpa using hs.1
      simp [hc]
    | cons d s => exact hs.1

theorem arrowsOnly_of_append {t : GoString} (h : arrowsOnly (s ++ t) = true) :
    arrowsOnly t = true := by
  induction s with
  | nil => exact h
  | cons c s ih =>
    rw [cons_append, arrowsOnly, Bool.and_eq_true] at h
    exact ih h.2

theorem arrowsOnly_of_forall (h : ∀ c ∈ s, c ≠ '-') : arrowsOnly s = true := by
  induction s with
  | nil => rfl
  | cons c s ih =>
    rw [forall_mem_cons] at h
    rw [arrowsOnly, Bool.and_eq_true]
    exact ⟨by simp [h.1], ih h.2⟩

theorem arrowsOnly_droppable (h : Piece.Droppable s) : arrowsOnly s = true := by
  refine arrowsOnly_of_forall fun c hc heq => ?_
  subst heq
  rcases h with ⟨d, rfl, hd⟩ | ⟨-, hall⟩
  · obtain rfl := mem_singleton.mp hc
    cases hd
  · exact absurd (hall _ hc) (by decide)

theorem arrowsOnly_flatMap {pieces : List Piece} (h : ∀ p ∈ pieces, arrowsOnly p.text = true) :
    arrowsOnly (pieces.flatMap Piece.text) = true := by
  induction pieces with
  | nil => rfl
  | cons p pieces ih =>
    rw [forall_mem_cons] at h
    exact arrowsOnly_append h.1 (ih h.2)

structure Renders (pieces : List Piece) (toks : List Token) : Prop where
  tokens : pieces.filterMap Piece.token? = toks
  sound : ∀ p ∈ pieces, p.Sound
  arrows : ∀ p ∈ pieces, arrowsOnly p.text = true

theorem renders_nil : Renders [] [] := ⟨rfl, by simp, by simp⟩

theorem Renders.append {p q : List Piece} {s t : List Token} (hp : Renders p s) (hq : Renders q t) :
    Renders (p ++ q) (s ++ t) where
  tokens := by rw [filterMap_append, hp.tokens, hq.tokens]
  sound x hx := (mem_append.mp hx).elim (hp.sound x) (hq.sound x)
  arrows x hx := (mem_append.mp hx).elim (hp.arrows x) (hq.arrows x)

theorem renders_token {tok : Token} (h : arrowsOnly tok.val = true) :
    Renders [.token tok] [tok] := by
  refine ⟨rfl, ?_, ?_⟩
  · simp [Piece.Sound]
  · simpa [Piece.text] using h

theorem renders_skipped (h : Piece.Droppable s) : Renders [.skipped s] [] := by
  refine ⟨rfl, ?_, ?_⟩
  · simpa [Piece.Sound] using h
  · simpa [Piece.text] using arrowsOnly_droppable h

theorem toUpper_eq_nil (h : GoString.toUpper s = []) : s = [] := by
  unfold GoString.toUpper at h
  split at h
  · rfl
  · cases h
  · split at h
    · cases h
    · split at h
      · cases h
      · cases h

theorem renders_emitWord (h : ∀ c ∈ l.content, isDelimiter c = false) :
    ∃ pieces, Renders pieces l.emitWord.1 ∧ pieces.flatMap Piece.text = l.content ∧
      l.emitWord.2.content = [] := by
  have harrows : arrowsOnly l.content = true := by
    refine arrowsOnly_of_forall fun c hc heq => ?_
    have := h c hc
    subst heq
    cases this
  have hemit : ∀ t : TokenType, ∃ pieces, Renders pieces [(l.emit t).1] ∧
      pieces.flatMap Piece.text = l.content ∧ (l.emit t).2.content = [] := fun t =>
    ⟨_, renders_token harrows, by simp [Piece.text, Lexer.emit], rfl⟩
  unfold Lexer.emitWord
  dsimp only
  split
  · exact hemit _
  · split
    · exact hemit _
    · split
      · exact hemit _
      · next hempty =>
        have hcontent : l.content = [] :=
          toUpper_eq_nil (length_eq_zero_iff.mp (Nat.eq_zero_of_not_pos hempty))
        exact ⟨[], renders_nil, by rw [hcontent]; rfl, hcontent⟩

structure RoundEnd (input : GoString) (toks : List Token) (l : Lexer)
    (continues : Bool) : Prop where
  pieces : ∃ pieces, Renders pieces toks ∧
    if continues = true then pieces.flatMap Piece.text ++ l.rest = input
    else pieces.flatMap Piece.text = input ∨
      ∃ post, input = pieces.flatMap Piece.text ++ '-' :: post ∧ post.head? ≠ some '>'
  content : continues = true → l.content = []

theorem isDelimiter_cases (h : isDelimiter c = true) (hspace : isSpace c = false)
    (hnone : delimiters c = none) : c = '-' := by
  unfold isDelimiter at h
  rw [hnone, hspace] at h
  simpa using h

theorem delimiters_dash {t : TokenType} (h : delimiters c = some t) : c ≠ '-' := by
  rintro rfl
  cases h

theorem roundEnd_emitDelimiter (hcontent : l.content = [c]) (hdelim : isDelimiter c = true) :
    RoundEnd (c :: l.rest) (l.emitDelimiter (some c)).1 (l.emitDelimiter (some c)).2.1
      (l.emitDelimiter (some c)).2.2 := by
  unfold Lexer.emitDelimiter
  split
  · next hline =>
    -- a horizontal line
    obtain ⟨hc, hpeek⟩ := hline
    cases hc
    obtain ⟨rest, hrest⟩ := head?_eq_some_iff.mp hpeek
    have hdrop : Piece.Droppable ('=' :: l.rest.takeWhile fun c => c = '=') := by
      refine .inr ⟨?_, ?_⟩
      · rw [hrest]
        simp
      · refine forall_mem_cons.mpr ⟨rfl, fun d hd => ?_⟩
        simpa using all_eq_true.mp all_takeWhile d hd
    refine ⟨⟨_, renders_skipped hdrop, ?_⟩, fun _ => rfl⟩
    rw [if_pos rfl]
    simp [Piece.text, Lexer.nextWhile, Lexer.emitIgnore]
  · next hline =>
    split
    · next harrow =>
      obtain ⟨hc, hpeek⟩ := harrow
      cases hc
      obtain ⟨rest, hrest⟩ := head?_eq_some_iff.mp hpeek
      have hval : (l.next.2.emit .RIGHT_ARROW).1.val = ['-', '>'] := by
        simp [Lexer.emit, Lexer.next, hrest, hcontent]
      refine ⟨⟨_, renders_token (by rw [hval]; rfl), ?_⟩, fun _ => rfl⟩
      rw [if_pos rfl]
      simp [Piece.text, hcontent, Lexer.emit, Lexer.next, hrest]
    · next harrow =>
      cases ht : delimiters c with
      | some t =>
        have hval : (l.emit t).1.val = [c] := hcontent
        have harrows : arrowsOnly (l.emit t).1.val = true := by
          rw [hval]
          exact arrowsOnly_of_forall fun d hd => mem_singleton.mp hd ▸ delimiters_dash ht
        simp only [Option.bind_some, ht]
        refine ⟨⟨_, renders_token harrows, ?_⟩, fun _ => rfl⟩
        rw [if_pos rfl]
        simp [Piece.text, hcontent, Lexer.emit]
      | none =>
        simp only [Option.bind_some, ht]
        cases hs : isSpace c with
        | true =>
          refine ⟨⟨_, renders_skipped (.inl ⟨c, rfl, hs⟩), ?_⟩, fun _ => rfl⟩
          rw [if_pos rfl]
          rfl
        | false =>
          obtain rfl := isDelimiter_cases hdelim hs ht
          refine ⟨⟨[], renders_nil, .inr ⟨l.rest, rfl, fun hhead => harrow ⟨rfl, hhead⟩⟩⟩,
            fun h => ?_⟩
          cases h

theorem roundEnd_scan (hcontent : l.content = []) :
    RoundEnd l.rest l.scanUntilDelimeter.1 l.scanUntilDelimeter.2.1 l.scanUntilDelimeter.2.2 := by
  set w := l.nextWhile (fun c => !isDelimiter c) with hw
  have hwcontent : w.content = l.rest.takeWhile fun c => !isDelimiter c := by
    rw [hw, Lexer.nextWhile, hcontent, nil_append]
  have hsplit : w.content ++ w.rest = l.rest := by
    rw [hwcontent]
    exact takeWhile_append_dropWhile
  have hword : ∀ c ∈ w.content, isDelimiter c = false := by
    intro c hc
    rw [hwcontent] at hc
    simpa using all_eq_true.mp all_takeWhile c hc
  obtain ⟨pieces, hrenders, htext, hempty⟩ := renders_emitWord hword
  have hrest : w.emitWord.2.rest = w.rest := w.emitWord_rest
  have hscan : l.scanUntilDelimeter =
      (w.emitWord.1 ++ (w.emitWord.2.next.2.emitDelimiter w.emitWord.2.next.1).1,
        w.emitWord.2.next.2.emitDelimiter w.emitWord.2.next.1 |>.2) := rfl
  rw [hscan]
  generalize w.emitWord.2 = e at hempty hrest
  cases hr : e.rest with
  | nil =>
    have hnext : e.next = (none, e) := by rw [Lexer.next, hr]
    rw [hnext]
    refine ⟨⟨pieces ++ [], hrenders.append renders_nil, .inl ?_⟩, fun h => nomatch h⟩
    rw [append_nil, htext, ← hsplit, ← hrest, hr, append_nil]
  | cons c rest =>
    have hdelim : isDelimiter c = true := by
      have hdrop : l.rest.dropWhile (fun c => !isDelimiter c) = c :: rest := by
        rw [← hr, hrest]
        rfl
      have hne : l.rest.dropWhile (fun c => !isDelimiter c) ≠ [] := by
        rw [hdrop]
        exact cons_ne_nil _ _
      have hhead := head_dropWhile_not (fun c => !isDelimiter c) hne
      simpa [hdrop] using hhead
    have hnext : e.next.1 = some c ∧ e.next.2.rest = rest ∧ e.next.2.content = [c] := by
      simp [Lexer.next, hr, hempty]
    obtain ⟨hfst, hnrest, hncontent⟩ := hnext
    rw [hfst]
    obtain ⟨⟨more, hmore, hend⟩, hdone⟩ := roundEnd_emitDelimiter hncontent hdelim
    rw [hnrest] at hend
    have hinput : l.rest = w.content ++ c :: rest := by rw [← hsplit, ← hrest, hr]
    refine ⟨⟨pieces ++ more, hrenders.append hmore, ?_⟩, hdone⟩
    rw [flatMap_append, htext, hinput]
    split
    · next hcont =>
      rw [if_pos hcont] at hend
      rw [append_assoc, hend]
    · next hcont =>
      rw [if_neg hcont] at hend
      rcases hend with hend | ⟨post, hpost, hhead⟩
      · exact .inl (by rw [hend])
      · exact .inr ⟨post, by rw [hpost, append_assoc], hhead⟩

theorem run_succ (fuel : Nat) (l : Lexer) : Lexer.run (fuel + 1) l =
    l.scanUntilDelimeter.1 ++
      if l.scanUntilDelimeter.2.2 = true then Lexer.run fuel l.scanUntilDelimeter.2.1 else [] := rfl

theorem renders_run {fuel : Nat} (hfuel : l.rest.length < fuel) (hcontent : l.content = []) :
    ∃ pieces, Renders pieces (Lexer.run fuel l) ∧ (pieces.flatMap Piece.text = l.rest ∨
      ∃ post, l.rest = pieces.flatMap Piece.text ++ '-' :: post ∧ post.head? ≠ some '>') := by
  induction fuel generalizing l with
  | zero => exact absurd hfuel (Nat.not_lt_zero _)
  | succ fuel ih =>
    obtain ⟨⟨pieces, hrenders, hend⟩, hdone⟩ := roundEnd_scan hcontent
    rw [run_succ]
    split
    · next hcont =>
      rw [if_pos hcont] at hend
      have hshorter := Lexer.scanUntilDelimeter_rest_lt l hcont
      obtain ⟨more, hmore, hrest⟩ := ih (l := l.scanUntilDelimeter.2.1) (by omega) (hdone hcont)
      refine ⟨pieces ++ more, hrenders.append hmore, ?_⟩
      rw [flatMap_append, ← hend]
      rcases hrest with hrest | ⟨post, hpost, hhead⟩
      · exact .inl (by rw [hrest])
      · exact .inr ⟨post, by rw [hpost, append_assoc], hhead⟩
    · next hcont =>
      rw [if_neg hcont] at hend
      exact ⟨pieces, by rw [append_nil]; exact hrenders, hend⟩

theorem arrowsOnly_lone {post : GoString} (h : post.head? ≠ some '>') :
    arrowsOnly (s ++ '-' :: post) = false := by
  rw [← Bool.not_eq_true]
  intro harrows
  have hdash := arrowsOnly_of_append harrows
  rw [arrowsOnly, Bool.and_eq_true] at hdash
  exact h (by simpa using hdash.1)

theorem arrowsOnly_token {input : GoString} {tok : Token} (h : tok ∈ lex input) :
    arrowsOnly tok.val = true := by
  obtain ⟨pieces, hrenders, -⟩ :=
    renders_run (l := { rest := input }) (Nat.lt_succ_self input.length) rfl
  rw [lex, ← hrenders.tokens] at h
  obtain ⟨p, hp, htok⟩ := mem_filterMap.mp h
  cases p with
  | skipped s => cases htok
  | token tok' =>
    cases htok
    exact hrenders.arrows _ hp

theorem arrowsOnly_of_covers {input : GoString} (h : Covers (lex input) input) :
    arrowsOnly input = true := by
  obtain ⟨pieces, htokens, hsound, htext⟩ := h
  rw [← htext]
  refine arrowsOnly_flatMap fun p hp => ?_
  cases p with
  | skipped s => exact arrowsOnly_droppable (hsound _ hp)
  | token tok =>
    refine arrowsOnly_token (?_ : tok ∈ lex input)
    rw [← htokens]
    exact mem_filterMap.mpr ⟨_, hp, rfl⟩

/-- The tokens of a text cover it exactly when every `-` in it is followed by `>`. -/
theorem covers_lex_iff (input : GoString) : Covers (lex input) input ↔ arrowsOnly input = true := by
  refine ⟨arrowsOnly_of_covers, fun harrows => ?_⟩
  obtain ⟨pieces, hrenders, hend⟩ :=
    renders_run (l := { rest := input }) (Nat.lt_succ_self input.length) rfl
  rcases hend with hend | ⟨post, hpost, hhead⟩
  · exact ⟨pieces, hrenders.tokens, hrenders.sound, hend⟩
  · have hinput : input = pieces.flatMap Piece.text ++ '-' :: post := hpost
    rw [hinput, arrowsOnly_lone hhead] at harrows
    cases harrows

def dashText : GoString :=
  ("function f()() public \x7b Begin block 0x0 prev = [], succ = [] 0x0: STOP \x7d - " ++
    "function g()() public \x7b Begin block 0x1 prev = [], succ = [] 0x1: STOP \x7d").toList

def functionNames (input : GoString) : Option (List GoString) :=
  (parseProgram input).toOption.map fun ast => ast.functions.map AstFunction.name

/-- The parse succeeds and the second function is missing. -/
theorem dashText_not_covered :
    functionNames dashText = some ["f()".toList] ∧ ¬ Covers (lex dashText) dashText := by
  have hdash : arrowsOnly dashText = false := by decide +kernel
  refine ⟨by decide +kernel, fun h => ?_⟩
  rw [arrowsOnly_of_covers h] at hdash
  cases hdash

end EtherVal.TacParser
