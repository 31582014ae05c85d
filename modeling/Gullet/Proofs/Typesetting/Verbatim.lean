import Gullet.Proofs.Evolution.Acts
import Gullet.Proofs.Macro.Arguments
import Gullet.Proofs.Scopes.History
import Gullet.Proofs.Stream.Remaining
import Gullet.Proofs.Taking.Processing

/-!
# Verbatim text

While verbatim text is read nothing but letters has a meaning, so that what stands between the two
delimiters is taken character by character. The first delimiter may have been looked at before, with the
categories that held then. However the reading ends, the categories are those from before.
-/

namespace Gullet

/-! ### The categories of verbatim text -/

namespace Scopes

theorem verbatimCode_verbatimCode (c : CatCode) : verbatimCode (verbatimCode c) = verbatimCode c := by
  cases c <;> rfl

/-- The categories of the ASCII characters are changed, and no others. -/
theorem catCode_verbatimStore (s : Store) (n : Nat) :
    (verbatimStore s).catCode n = if n < 128 then verbatimCode (s.catCode n) else s.catCode n := by
  have hfold (codePoints : List Nat) (s : Store) :
      (codePoints.foldl (fun s c => s.setCatCode .inner c (verbatimCode (s.catCode c))) s).catCode n =
        if n ∈ codePoints then verbatimCode (s.catCode n) else s.catCode n := by
    induction codePoints generalizing s with
    | nil => rfl
    | cons c rest ih =>
      have hone : (s.setCatCode .inner c (verbatimCode (s.catCode c))).catCode n =
          if n = c then verbatimCode (s.catCode c) else s.catCode n := by
        unfold Store.catCode Store.setCatCode
        rw [ScopedMap.visible_insert]
        exact CatCode.Table.code_assign _ c n _
      rw [List.foldl_cons, ih, hone]
      by_cases hn : n = c
      · subst hn
        simp [verbatimCode_verbatimCode]
      · simp [hn]
  unfold verbatimStore
  rw [hfold]
  simp

end Scopes

theorem Machine.codeOf_verbatim (m : Machine) (c : Char) :
    (m.change .verbatim).codeOf c =
      if c.toNat < 128 then Scopes.verbatimCode (m.codeOf c) else m.codeOf c :=
  Scopes.catCode_verbatimStore m.scopes.store c.toNat

/-- Letters and other characters. -/
def CatCode.IsPlain (code : CatCode) : Prop := code = .letter ∨ code = .other

theorem CatCode.IsPlain.category {code : CatCode} (h : code.IsPlain) :
    ∃ category : CharCategory, code = category.code ∧ category ≠ .space ∧ category ≠ .superscript := by
  rcases h with rfl | rfl
  · exact ⟨.letter, rfl, nofun, nofun⟩
  · exact ⟨.other, rfl, nofun, nofun⟩

theorem Scopes.isPlain_verbatimCode (c : CatCode) : (verbatimCode c).IsPlain := by
  cases c with
  | letter => exact .inl rfl
  | _ => exact .inr rfl

/-- In verbatim text all ASCII characters are letters or other characters. -/
theorem Machine.isPlain_codeOf_verbatim {m : Machine} {c : Char}
    (hbeyond : 128 ≤ c.toNat → (m.codeOf c).IsPlain) : ((m.change .verbatim).codeOf c).IsPlain := by
  rw [codeOf_verbatim]
  split
  · exact Scopes.isPlain_verbatimCode _
  · rename_i hc
    exact hbeyond (Nat.not_lt.1 hc)

/-! ### Reading in a file -/

namespace Input

/-- The source is a file of which nothing is left. -/
def IsExhausted (s : InputSource) : Prop :=
  s.pending.tokens = [] ∧ ∃ lexer, s.kind = .file lexer ∧ lexer.rest = []

/-- The input goes on in a file: nothing that was put back comes before it, and no file above it has
anything left. -/
def GoesOnIn (lexer : Lexer) (below sources : List InputSource) : Prop :=
  ∃ exhausted, (∀ s ∈ exhausted, IsExhausted s) ∧ sources = exhausted ++ { kind := .file lexer } :: below

variable {code : Char → CatCode} {lexer lexer' : Lexer} {below sources : List InputSource} {t : Token}

/-- An exhausted file on top is dropped. -/
theorem read_of_isExhausted {s : InputSource} (hs : IsExhausted s) (hsources : sources ≠ [])
    (report : Bool) :
    (read code report true (s :: sources)).result = (read code report true sources).result ∧
      (read code report true (s :: sources)).sources = (read code report true sources).sources := by
  obtain ⟨hpending, lexer, hkind, hrest⟩ := hs
  have hempty : sources.isEmpty = false := by
    cases sources with
    | nil => exact absurd rfl hsources
    | cons => rfl
  have hdrop : ∃ comments, read code report true (s :: sources) =
      { read code report true sources with
        comments := comments ++ (read code report true sources).comments } := by
    rw [read, (Pending.pop?_eq_none_iff s.pending).2 hpending]
    dsimp only
    rw [hkind]
    dsimp only
    rw [Lexer.next_of_end hrest, hempty]
    exact ⟨_, rfl⟩
  obtain ⟨comments, hread⟩ := hdrop
  rw [hread]
  exact ⟨rfl, rfl⟩

/-- The next token is that of the file, and the exhausted files are dropped. -/
theorem read_of_goesOnIn (h : GoesOnIn lexer below sources)
    (hnext : lexer.next code = (.ok (some t), lexer')) (report : Bool) :
    (read code report true sources).result = .ok (some t) ∧
      ∃ comments, (read code report true sources).sources =
        { kind := .file { lexer' with comments } } :: below := by
  obtain ⟨exhausted, hexhausted, rfl⟩ := h
  induction exhausted with
  | nil =>
    have hpop : Pending.pop? .empty = none := rfl
    rw [List.nil_append, read]
    dsimp only
    rw [hpop, hnext]
    cases report with
    | false => exact ⟨rfl, lexer'.comments, rfl⟩
    | true => exact ⟨rfl, [], rfl⟩
  | cons s exhausted ih =>
    obtain ⟨hs, hexhausted⟩ := List.forall_mem_cons.1 hexhausted
    have hmore :=
      List.append_ne_nil_of_right_ne_nil exhausted (List.cons_ne_nil { kind := .file lexer } below)
    obtain ⟨hresult, hsources⟩ := read_of_isExhausted hs hmore report
    rw [List.cons_append, hresult, hsources]
    exact ih hexhausted

end Input

/-- The machine can go on in a file with the given text. The file is the given one, read further. -/
structure Machine.InFile (file : Lexer) (below : List InputSource) (text : List Char) (m : Machine) :
    Prop where
  going : m.cancellation.raised = false
  accounted : Input.Accounted m.input.sources
  goesOn : ∃ lexer, Input.GoesOnIn lexer below m.input.sources ∧ file.Passes lexer ∧ lexer.rest = text

namespace Machine.InFile

variable {file : Lexer} {below : List InputSource} {c : Char} {text : List Char} {m : Machine}

/-- The next character of the text is read. -/
theorem raw (h : m.InFile file below (c :: text)) {category : CharCategory}
    (hc : m.codeOf c = category.code) (hspace : category ≠ .space) (hsup : category ≠ .superscript) :
    ∃ key m', Stream.raw m = (.ok (some ⟨.char category c, key⟩), m') ∧ m.SameButInput m' ∧
      m'.InFile file below text := by
  obtain ⟨lexer, hgoes, hpasses, hrest⟩ := h.goesOn
  have hnext := Lexer.next_of_char hc hspace hsup hrest
  have hpassed := (lexer.passes_next m.codeOf).1
  rw [hnext] at hpassed
  obtain ⟨hresult, comments, hsources⟩ := Input.read_of_goesOnIn hgoes hnext m.config.retainComments
  have hraw : Stream.raw m = (.ok (some ⟨.char category c, _⟩), m.afterRead) :=
    Run.raw_eq_ok_iff.2 ⟨h.going, hresult, rfl⟩
  have hsame := Machine.SameButInput.afterRead m
  have haccounted := Run.accounted_of_raw hraw h.accounted
  refine ⟨_, m.afterRead, hraw, hsame, hsame.raised.trans h.going, haccounted, ?_⟩
  rw [Machine.sources_afterRead, hsources]
  have hkept := hpasses.trans hpassed
  exact ⟨_, ⟨[], List.forall_mem_nil _, rfl⟩, ⟨hkept.keys, hkept.size, hkept.offset, hkept.bytes⟩, rfl⟩

/-- A letter or another character is read. -/
theorem raw_of_isPlain (h : m.InFile file below (c :: text)) (hc : (m.codeOf c).IsPlain) :
    ∃ category key m', Stream.raw m = (.ok (some ⟨.char category c, key⟩), m') ∧ m.SameButInput m' ∧
      m'.InFile file below text := by
  obtain ⟨category, hcode, hspace, hsup⟩ := hc.category
  exact ⟨category, h.raw hcode hspace hsup⟩

/-- Nothing but the input and the cancellation matters. -/
theorem of_same {m' : Machine} (h : m.InFile file below text) (hinput : m'.input = m.input)
    (hcancellation : m'.cancellation = m.cancellation) : m'.InFile file below text where
  going := by rw [hcancellation, h.going]
  accounted := by
    rw [hinput]
    exact h.accounted
  goesOn := by
    rw [hinput]
    exact h.goesOn

theorem readable (h : m.InFile file below text) : m.Readable := by
  obtain ⟨lexer, ⟨exhausted, -, hsources⟩, -⟩ := h.goesOn
  refine ⟨h.going, ?_⟩
  rw [hsources]
  exact List.append_ne_nil_of_right_ne_nil exhausted (List.cons_ne_nil _ below)

end Machine.InFile

/-! ### What reading verbatim text leaves alone -/

/-- Nothing that is subject to grouping is changed, and nothing is given out but comments that are
skipped. -/
def Machine.Skims (m m' : Machine) : Prop :=
  m'.scopes = m.scopes ∧ ∃ passed, m'.output.events = passed ++ m.output.events ∧
    ∀ e ∈ passed, ∃ comment, e = .skipping comment

namespace Machine.Skims

variable {m m' m'' : Machine}

theorem of_eq (hs : m'.scopes = m.scopes) (he : m'.output.events = m.output.events) : m.Skims m' :=
  ⟨hs, [], he, List.forall_mem_nil _⟩

theorem trans (h : m.Skims m') (h' : m'.Skims m'') : m.Skims m'' := by
  obtain ⟨hs, passed, he, hpassed⟩ := h
  obtain ⟨hs', passed', he', hpassed'⟩ := h'
  refine ⟨hs'.trans hs, passed' ++ passed, ?_, List.forall_mem_append.2 ⟨hpassed', hpassed⟩⟩
  rw [he', he, List.append_assoc]

instance : Reading Skims where
  refl _ := .of_eq rfl rfl
  trans _ _ _ := .trans
  read _ := .of_eq rfl rfl
  skip _ c := ⟨rfl, [.skipping c], rfl, List.forall_mem_singleton.2 ⟨c, rfl⟩⟩

end Machine.Skims

theorem Machine.Reads.skims {m m' : Machine} (h : m.Reads m') : m.Skims m' := by
  induction h with
  | refl => exact .of_eq rfl rfl
  | trans _ _ ih ih' => exact ih.trans ih'
  | read => exact .of_eq rfl rfl
  | skip m c => exact Machine.Reading.skip m c

namespace Typesetting

open Machine

/-- When verbatim text has been read, or its reading has failed, the categories are those from before. -/
theorem skims_withVerbatimCodes (t : Token) : (withVerbatimCodes (verbatim t)).Keeps Skims := by
  intro m
  have hreads := Run.reads_verbatim t (m.change .verbatim)
  obtain ⟨hscopes, passed, hevents, hpassed⟩ := hreads.skims
  refine ⟨?_, passed, hevents, hpassed⟩
  show ((verbatim t (m.change .verbatim)).2.scopes).apply (.restored m.scopes.store.catCodes) = m.scopes
  rw [hscopes]
  exact Scopes.apply_restored_verbatim m.scopes

theorem skims_modifier (c : Char) : (Reader.modifier c).Keeps Skims := by
  have hback (t : Token) : (Run.pushBack t).Keeps Skims := fun m => .of_eq rfl rfl
  have htake {α : Type} (p : TokenValue → Option α) : (Stream.raw.take? p).Keeps Skims := by
    refine Run.keeps_raw.bind fun r => ?_
    cases r with
    | none => exact Run.keeps_pure _
    | some t =>
      dsimp only
      split
      · exact Run.keeps_pure _
      · exact (hback t).bind fun _ => Run.keeps_pure _
  have hspaces : Stream.raw.skipSpaces.Keeps Skims := by
    refine Run.Keeps.loop (fun _ => ?_) ()
    refine ((htake _).bind fun _ => Run.keeps_pure _).bind fun found => ?_
    split
    · exact Run.keeps_pure _
    · exact Run.keeps_pure _
  exact hspaces.bind fun _ => (htake _).bind fun _ => Run.keeps_pure _

/-- However `\verb` ends, nothing that is subject to grouping has been changed. -/
theorem scopes_verb (t : Token) (m : Machine) : (verb t m).2.scopes = m.scopes := by
  have : IsPreorder Machine fun m m' => m'.scopes = m.scopes :=
    { refl := fun _ => rfl, trans := fun _ _ _ h h' => h'.trans h }
  have hmodifier : (Reader.modifier '*').Keeps fun m m' => m'.scopes = m.scopes :=
    fun m => (skims_modifier '*' m).1
  have htext : (withVerbatimCodes (verbatim t)).Keeps fun m m' => m'.scopes = m.scopes :=
    fun m => (skims_withVerbatimCodes t m).1
  exact (hmodifier.bind fun starred => htext.bind fun text m => rfl) m

/-! ### Reading the text -/

/-- One round of reading verbatim text. -/
def verbatimRound (t : Token) (delimiter : Char) (sofar : String) : Run (String ⊕ String) := do
  let next ← Stream.raw.nextOr .verbText
  match next.value with
  | .command ref => return .inl (sofar ++ ref.text)
  | .char _ c =>
    if isLineEnd c then Run.fail (.verbLineEnd t delimiter)
    else if c = delimiter then return .inr sofar
    else return .inl (sofar.push c)

/-- A character is taken, unless it ends the text. -/
theorem verbatimRound_of_char {t : Token} {m m' : Machine} {category : CharCategory} {c : Char}
    {key : SourceKey} (h : Stream.raw m = (.ok (some ⟨.char category c, key⟩), m')) (delimiter : Char)
    (sofar : String) :
    verbatimRound t delimiter sofar m =
      (if isLineEnd c then Run.fail (.verbLineEnd t delimiter)
        else if c = delimiter then pure (.inr sofar)
        else pure (.inl (sofar.push c))) m' := by
  unfold verbatimRound
  rw [Run.bind_of_ok (Run.nextOr_of_some h _)]

theorem verbatim_of_delimiter {t first : Token} {m m' : Machine} {category : CharCategory}
    {delimiter : Char} (h : Stream.raw m = (.ok (some first), m'))
    (hv : first.value = .char category delimiter) :
    verbatim t m = Run.loop (verbatimRound t delimiter) "" m' := by
  unfold verbatim
  rw [Run.bind_of_ok (Run.nextOr_of_some h _), hv]
  rfl

variable {file : Lexer} {below : List InputSource} {text rest : List Char} {m : Machine} {t : Token}
  {c delimiter : Char}

/-- The characters that belong to a verbatim text with the given delimiter. -/
def IsVerbatim (code : Char → CatCode) (delimiter c : Char) : Prop :=
  (code c).IsPlain ∧ isLineEnd c = false ∧ c ≠ delimiter

/-- The text is taken character by character. -/
theorem loop_verbatim (h : m.InFile file below (text ++ rest))
    (htext : ∀ c ∈ text, IsVerbatim m.codeOf delimiter c) (sofar : String) :
    ∃ m', Run.loop (verbatimRound t delimiter) sofar m =
        Run.loop (verbatimRound t delimiter) (sofar ++ String.ofList text) m' ∧
      m.SameButInput m' ∧ m'.InFile file below rest := by
  induction text generalizing m sofar with
  | nil =>
    refine ⟨m, ?_, .refl m, h⟩
    simp
  | cons c text ih =>
    obtain ⟨⟨hplain, hline, hne⟩, htext⟩ := List.forall_mem_cons.1 htext
    obtain ⟨category, key, m₁, hraw, hsame, hm₁⟩ := h.raw_of_isPlain hplain
    have hround : verbatimRound t delimiter sofar m = (.ok (.inl (sofar.push c)), m₁) := by
      rw [verbatimRound_of_char hraw, hline, if_neg Bool.false_ne_true, if_neg hne]
      rfl
    rw [← hsame.codeOf] at htext
    obtain ⟨m', hloop, hsame', hm'⟩ := ih hm₁ htext (sofar.push c)
    have hwritten : sofar.push c ++ String.ofList text = sofar ++ String.ofList (c :: text) :=
      String.toList_inj.1 (by simp)
    refine ⟨m', ?_, hsame.trans hsame', hm'⟩
    rw [Run.loop_of_progress hround (Run.progress_of_raw hraw h.accounted), hloop, hwritten]

/-- The text is read up to the second delimiter. -/
theorem loop_verbatim_delimiter (h : m.InFile file below (text ++ delimiter :: rest))
    (htext : ∀ c ∈ text, IsVerbatim m.codeOf delimiter c) (hdelimiter : (m.codeOf delimiter).IsPlain)
    (hline : isLineEnd delimiter = false) :
    ∃ m', Run.loop (verbatimRound t delimiter) "" m = (.ok (String.ofList text), m') ∧
      m'.InFile file below rest := by
  obtain ⟨m₁, hloop, hsame, hm₁⟩ := loop_verbatim (t := t) h htext ""
  rw [← hsame.codeOf] at hdelimiter
  obtain ⟨category, key, m', hraw, -, hm'⟩ := hm₁.raw_of_isPlain hdelimiter
  refine ⟨m', hloop.trans (Run.loop_of_answer ?_), hm'⟩
  rw [verbatimRound_of_char hraw, hline, if_neg Bool.false_ne_true, if_pos rfl, String.empty_append]
  rfl

/-- At the end of a line the reading fails, even if the delimiter ends lines. -/
theorem loop_verbatim_lineEnd {e : Char} (h : m.InFile file below (text ++ e :: rest))
    (htext : ∀ c ∈ text, IsVerbatim m.codeOf delimiter c) (he : (m.codeOf e).IsPlain)
    (hline : isLineEnd e = true) :
    ∃ d m', Run.loop (verbatimRound t delimiter) "" m = (.error (.failed d), m') := by
  obtain ⟨m₁, hloop, hsame, hm₁⟩ := loop_verbatim (t := t) h htext ""
  rw [← hsame.codeOf] at he
  obtain ⟨category, key, m', hraw, -, hm'⟩ := hm₁.raw_of_isPlain he
  have hround : verbatimRound t delimiter ("" ++ String.ofList text) m₁ =
      Run.fail (.verbLineEnd t delimiter) m' := by
    rw [verbatimRound_of_char hraw, hline, if_pos rfl]
  exact ⟨_, m', hloop.trans (Run.loop_of_error hround)⟩

/-! ### The command -/

/-- A star is taken. -/
theorem modifier_of_star {m' : Machine} {category : CharCategory} {key : SourceKey}
    (h : Stream.raw m = (.ok (some ⟨.char category '*', key⟩), m'))
    (hcategory : category = .letter ∨ category = .other) : Reader.modifier '*' m = (.ok true, m') := by
  have hspace : TokenValue.isSpace (.char category '*') = false := by
    rcases hcategory with rfl | rfl <;> rfl
  unfold Reader.modifier
  rw [Run.bind_of_ok (Run.skipSpaces_of_some h hspace),
    Run.bind_of_ok (Run.take?_of_some (a := ()) (Run.raw_of_pushBack h) ?_)]
  · rfl
  · rcases hcategory with rfl | rfl <;> rfl

/-- What is no star is looked at and put back. -/
theorem modifier_of_ne {m' : Machine} {first : Token} (h : Stream.raw m = (.ok (some first), m'))
    (hspace : first.value.isSpace = false)
    (hne : first.value ≠ .char .other '*' ∧ first.value ≠ .char .letter '*') :
    Reader.modifier '*' m = (.ok false, m'.push [first]) := by
  unfold Reader.modifier
  rw [Run.bind_of_ok (Run.skipSpaces_of_some h hspace),
    Run.bind_of_ok (Run.take?_of_none (Run.raw_of_pushBack h) (if_neg (by simp [hne.1, hne.2])))]
  rfl

/-- After the star, if there is one, and the first delimiter, the given machine is to read the text. -/
def ComesToText (t : Token) (starred : Bool) (delimiter : Char) (m v : Machine) : Prop :=
  ∃ n, Reader.modifier '*' m = (.ok starred, n) ∧ n.scopes = m.scopes ∧
    verbatim t (n.change .verbatim) = Run.loop (verbatimRound t delimiter) "" v

/-- The first delimiter has been looked at, with the categories from before, when those of verbatim text
take effect. -/
theorem comesToText_unstarred {category : CharCategory} (h : m.InFile file below (delimiter :: rest))
    (hc : m.codeOf delimiter = category.code) (hspace : category ≠ .space) (hsup : category ≠ .superscript)
    (hne : delimiter = '*' → ¬ category.code.IsPlain) (t : Token) :
    ∃ v, ComesToText t false delimiter m v ∧ v.InFile file below rest ∧
      v.codeOf = (m.change .verbatim).codeOf := by
  obtain ⟨key, n, hraw, hsame, hn⟩ := h.raw hc hspace hsup
  have hscopes : n.scopes = m.scopes := by rw [hsame]
  have hnospace : TokenValue.isSpace (.char category delimiter) = false := by
    cases category <;> first | rfl | exact absurd rfl hspace
  have hmodifier : Reader.modifier '*' m = (.ok false, n.push [⟨.char category delimiter, key⟩]) := by
    refine modifier_of_ne hraw hnospace ⟨fun hv => ?_, fun hv => ?_⟩
    · obtain ⟨rfl, rfl⟩ := TokenValue.char.inj hv
      exact hne rfl (.inr rfl)
    · obtain ⟨rfl, rfl⟩ := TokenValue.char.inj hv
      exact hne rfl (.inl rfl)
  have hv : (n.change .verbatim).InFile file below rest := hn.of_same rfl rfl
  have hfirst : Stream.raw ((n.push [⟨.char category delimiter, key⟩]).change .verbatim) =
      (.ok (some ⟨.char category delimiter, key⟩), n.change .verbatim) := by
    have hpush : Stream.raw ((n.change .verbatim).push [⟨.char category delimiter, key⟩]) = _ :=
      Run.raw_push hv.readable
    rw [Run.push_nil hv.readable] at hpush
    exact hpush
  refine ⟨n.change .verbatim, ⟨_, hmodifier, hscopes, verbatim_of_delimiter hfirst rfl⟩, hv, ?_⟩
  funext c
  rw [Machine.codeOf_verbatim, Machine.codeOf_verbatim, hsame.codeOf]

/-- After a star the first delimiter is read with the categories of verbatim text. -/
theorem comesToText_starred (h : m.InFile file below ('*' :: delimiter :: rest))
    (hstar : (m.codeOf '*').IsPlain) (hdelimiter : m.codeOf delimiter = .other) (t : Token) :
    ∃ v, ComesToText t true delimiter m v ∧ v.InFile file below rest ∧
      v.codeOf = (m.change .verbatim).codeOf := by
  obtain ⟨category, hc, hcategory⟩ : ∃ category : CharCategory,
      m.codeOf '*' = category.code ∧ (category = .letter ∨ category = .other) :=
    hstar.elim (fun hc => ⟨.letter, hc, .inl rfl⟩) fun hc => ⟨.other, hc, .inr rfl⟩
  have hspace : category ≠ .space := by rcases hcategory with rfl | rfl <;> nofun
  have hsup : category ≠ .superscript := by rcases hcategory with rfl | rfl <;> nofun
  obtain ⟨key, n, hraw, hsame, hn⟩ := h.raw hc hspace hsup
  have hscopes : n.scopes = m.scopes := by rw [hsame]
  have hverbatim : (n.change .verbatim).codeOf = (m.change .verbatim).codeOf := by
    funext c
    rw [Machine.codeOf_verbatim, Machine.codeOf_verbatim, hsame.codeOf]
  have hother : (n.change .verbatim).codeOf delimiter = CharCategory.other.code := by
    rw [hverbatim, Machine.codeOf_verbatim, hdelimiter]
    split <;> rfl
  have hbegun : (n.change .verbatim).InFile file below (delimiter :: rest) := hn.of_same rfl rfl
  obtain ⟨key', v, hfirst, hsame', hv⟩ := hbegun.raw hother nofun nofun
  refine ⟨v, ⟨n, modifier_of_star hraw hcategory, hscopes, verbatim_of_delimiter hfirst rfl⟩, hv, ?_⟩
  rw [hsame'.codeOf, hverbatim]

variable {starred : Bool} {v v' : Machine}

/-- When the text has been read the command gives it out. -/
theorem verb_eval {written : String} (h : ComesToText t starred delimiter m v)
    (hloop : Run.loop (verbatimRound t delimiter) "" v = (.ok written, v')) :
    verb t m =
        (.ok (), (v'.change (.restored m.scopes.store.catCodes)).emit (.verb written starred)) ∧
      m.Skims (v'.change (.restored m.scopes.store.catCodes)) := by
  obtain ⟨n, hmodifier, hscopes, hverbatim⟩ := h
  have htext : withVerbatimCodes (verbatim t) n =
      (.ok written, v'.change (.restored m.scopes.store.catCodes)) := by
    unfold withVerbatimCodes
    rw [hverbatim, hloop, hscopes]
  have hbefore := skims_modifier '*' m
  have hafter := skims_withVerbatimCodes t n
  rw [hmodifier] at hbefore
  rw [htext] at hafter
  refine ⟨?_, hbefore.trans hafter⟩
  unfold verb
  rw [Run.bind_of_ok hmodifier, Run.bind_of_ok htext]
  rfl

theorem verb_error {halt : Halt} (h : ComesToText t starred delimiter m v)
    (hloop : Run.loop (verbatimRound t delimiter) "" v = (.error halt, v')) :
    (verb t m).1 = .error halt := by
  obtain ⟨n, hmodifier, -, hverbatim⟩ := h
  have htext : withVerbatimCodes (verbatim t) n =
      (.error halt, v'.change (.restored n.scopes.store.catCodes)) := by
    unfold withVerbatimCodes
    rw [hverbatim, hloop]
  unfold verb
  rw [Run.bind_of_ok hmodifier, Run.bind_of_error htext]

/-- What stands in a file after `\verb`, with a star or without one, and then. -/
def verbChars (starred : Bool) (delimiter : Char) (text after : List Char) : List Char :=
  (if starred then ['*'] else []) ++ delimiter :: (text ++ delimiter :: after)

/-- **Verbatim text is given out as it stands, whatever the categories are.**

If a file goes on with a text between two copies of a delimiter, `\verb` gives out exactly the text, and
the input goes on right after the second copy. The delimiter is an other character that does not end
lines and no star, the text contains neither the delimiter nor the end of a line, and of its characters
those beyond ASCII are letters or other characters; and a star in front is a letter or an other character.

However the command ends, and whatever follows it, nothing that is subject to grouping has been changed,
and so the categories have not. -/
theorem process_verb {t : Token} {ref : CommandRef} {m : Machine} (hv : t.value = .command ref)
    (hverb : m.lookup ref = .execution .verb) :
    (Execution.process t m).2.scopes = m.scopes ∧
      ∀ (file : Lexer) (below : List InputSource) (starred : Bool) (delimiter : Char)
        (text after : List Char),
        m.InFile file below (verbChars starred delimiter text after) →
        m.codeOf delimiter = .other → delimiter ≠ '*' → isLineEnd delimiter = false →
        (starred = true → (m.codeOf '*').IsPlain) →
        (∀ c ∈ text, c ≠ delimiter ∧ isLineEnd c = false ∧ (128 ≤ c.toNat → (m.codeOf c).IsPlain)) →
        ∃ m' passed, Execution.process t m = (.ok (), m') ∧
          m'.output.events =
            .verb (String.ofList text) starred :: (passed ++ m.output.events) ∧
          (∀ e ∈ passed, ∃ comment, e = .skipping comment) ∧ m'.InFile file below after := by
  have hprocess := Run.process_execution_eval hv hverb
  refine ⟨?_, ?_⟩
  · rw [hprocess, Run.during_snd]
    exact scopes_verb t m
  intro file below starred delimiter text after h hdelimiter hne hline hstar htext
  obtain ⟨v, hcomes, hv, hcode⟩ : ∃ v, ComesToText t starred delimiter m v ∧
      v.InFile file below (text ++ delimiter :: after) ∧ v.codeOf = (m.change .verbatim).codeOf := by
    cases starred with
    | false =>
      have hother : m.codeOf delimiter = CharCategory.other.code := hdelimiter
      exact comesToText_unstarred h hother (by decide) (by decide) (absurd · hne) t
    | true => exact comesToText_starred h (hstar rfl) hdelimiter t
  have hplain : (v.codeOf delimiter).IsPlain := by
    rw [hcode]
    exact isPlain_codeOf_verbatim fun _ => .inr hdelimiter
  have hverbatim : ∀ c ∈ text, IsVerbatim v.codeOf delimiter c := by
    intro c hc
    obtain ⟨hne, hline, hbeyond⟩ := htext c hc
    rw [hcode]
    exact ⟨isPlain_codeOf_verbatim hbeyond, hline, hne⟩
  obtain ⟨v', hloop, hv'⟩ := loop_verbatim_delimiter (t := t) hv hverbatim hplain hline
  obtain ⟨heval, -, passed, hevents, hpassed⟩ := verb_eval hcomes hloop
  refine ⟨_, passed, hprocess.trans (Run.during_of_ok .execution t heval), ?_, hpassed, hv'.of_same rfl rfl⟩
  exact congrArg (Event.verb (String.ofList text) starred :: ·) hevents

/-! ### Files that are read by the standard machine -/

/-- The standard machine, after a character has been given a category, with a text in a file. -/
def facing (c : Char) (code : CatCode) (text : List Char) : Machine :=
  { Machine.standard.change (.written .inner (.catCode c.toNat code)) with
    input := ⟨[{ kind := .file (Lexer.start text .empty false) }, { kind := .bottom }]⟩ }

theorem codeOf_facing (c : Char) (code : CatCode) (text : List Char) (d : Char) :
    (facing c code text).codeOf d = if d.toNat = c.toNat then code else CatCode.ofChar d :=
  CatCode.Table.code_assign ∅ c.toNat d.toNat code

theorem inFile_facing (c : Char) (code : CatCode) (text : List Char) :
    (facing c code text).InFile (Lexer.start text .empty false) [{ kind := .bottom }] text where
  going := rfl
  accounted := by
    refine Input.accounted_cons.2 ⟨fun lexer hl => ?_, Input.accounted_bottom .empty⟩
    obtain rfl := SourceKind.file.inj hl
    exact .start text .empty false
  goesOn := ⟨_, ⟨[], List.forall_mem_nil _, rfl⟩, .refl _, rfl⟩

theorem lookup_facing (c : Char) (code : CatCode) (text : List Char) :
    (facing c code text).lookup (.controlSequence "verb") = .execution .verb :=
  Machine.lookup_standard_of_find? (by cbv)

/-- The text `\foo {` between two bars, in which `f` is an invalid character. -/
theorem process_verb_foo :
    let m := facing 'f' .invalid (verbChars false '|' ['\\', 'f', 'o', 'o', ' ', '\x7b'] ['x'])
    ∃ m' passed, Execution.process (.named "verb") m = (.ok (), m') ∧
      m'.output.events = .verb "\\foo \x7b" false :: (passed ++ m.output.events) ∧
      m'.InFile (Lexer.start (verbChars false '|' ['\\', 'f', 'o', 'o', ' ', '\x7b'] ['x']) .empty false)
        [{ kind := .bottom }] ['x'] := by
  intro m
  have hcode (d : Char) (hd : d.toNat ≠ 'f'.toNat) : m.codeOf d = CatCode.ofChar d := by
    rw [codeOf_facing, if_neg hd]
  have hbar : m.codeOf '|' = .other := by
    rw [hcode _ (by decide)]
    decide
  have htext : ∀ c ∈ ['\\', 'f', 'o', 'o', ' ', '\x7b'],
      c ≠ '|' ∧ isLineEnd c = false ∧ (128 ≤ c.toNat → (m.codeOf c).IsPlain) := by
    have hascii : ∀ c ∈ ['\\', 'f', 'o', 'o', ' ', '\x7b'],
        c ≠ '|' ∧ isLineEnd c = false ∧ c.toNat < 128 := List.forall_iff_forall_mem.1 (by decide)
    intro c hc
    obtain ⟨hne, hline, hlt⟩ := hascii c hc
    exact ⟨hne, hline, fun hbeyond => absurd hlt (Nat.not_lt.2 hbeyond)⟩
  obtain ⟨m', passed, heval, hevents, -, hm'⟩ :=
    (process_verb (t := .named "verb") rfl (lookup_facing 'f' .invalid _)).2 _ _ false '|' _ ['x']
      (inFile_facing 'f' .invalid _) hbar (by decide) (by decide) nofun htext
  exact ⟨m', passed, heval, hevents, hm'⟩

/-! ### Texts that are refused -/

/-- The text ends at the end of a line before the second delimiter, whatever the delimiter is. -/
theorem process_verb_lineEnd {ref : CommandRef} {category : CharCategory} {e : Char}
    (hv : t.value = .command ref) (hverb : m.lookup ref = .execution .verb)
    (h : m.InFile file below (delimiter :: (text ++ e :: rest)))
    (hc : m.codeOf delimiter = category.code) (hspace : category ≠ .space) (hsup : category ≠ .superscript)
    (hne : delimiter = '*' → ¬ category.code.IsPlain)
    (htext : ∀ c ∈ text, c ≠ delimiter ∧ isLineEnd c = false ∧ c.toNat < 128) (hline : isLineEnd e = true) :
    ∃ d, (Execution.process t m).1 = .error (.failed d) := by
  obtain ⟨v, hcomes, hfile, hcode⟩ := comesToText_unstarred h hc hspace hsup hne t
  have hascii {c : Char} (hc : c.toNat < 128) : (v.codeOf c).IsPlain := by
    rw [hcode]
    exact isPlain_codeOf_verbatim fun hbeyond => absurd hc (Nat.not_lt.2 hbeyond)
  have hverbatim : ∀ c ∈ text, IsVerbatim v.codeOf delimiter c := fun c hc =>
    ⟨hascii (htext c hc).2.2, (htext c hc).2.1, (htext c hc).1⟩
  have he : e.toNat < 128 := by
    have hend : e = '\r' ∨ e = '\n' := by simpa [isLineEnd] using hline
    rcases hend with rfl | rfl <;> decide
  obtain ⟨d, v', hloop⟩ := loop_verbatim_lineEnd (t := t) hfile hverbatim (hascii he) hline
  rw [Run.process_execution_eval hv hverb]
  exact Run.during_of_failed .execution t (verb_error hcomes hloop)

/-- The delimiter may not end lines, even if it is an other character; and a star that is neither a letter
nor an other character is the delimiter itself. -/
theorem verb_refused :
    let ended := facing '\n' .other (verbChars false '\n' ['a'] [])
    let starred := facing '*' .mathShift (verbChars true '|' ['a'] ['\n'])
    (ended.lookup (.controlSequence "verb") = .execution .verb ∧ ended.codeOf '\n' = .other ∧
        ended.InFile (Lexer.start (verbChars false '\n' ['a'] []) .empty false) [{ kind := .bottom }]
          (verbChars false '\n' ['a'] []) ∧
        ∃ d, (Execution.process (.named "verb") ended).1 = .error (.failed d)) ∧
      starred.lookup (.controlSequence "verb") = .execution .verb ∧ starred.codeOf '|' = .other ∧
        starred.InFile (Lexer.start (verbChars true '|' ['a'] ['\n']) .empty false) [{ kind := .bottom }]
          (verbChars true '|' ['a'] ['\n']) ∧
        ∃ d, (Execution.process (.named "verb") starred).1 = .error (.failed d) := by
  intro ended starred
  have hletter : ∀ c ∈ ['a'], c ≠ '\n' ∧ isLineEnd c = false ∧ c.toNat < 128 :=
    List.forall_iff_forall_mem.1 (by decide)
  have hbars : ∀ c ∈ ['|', 'a', '|'], c ≠ '*' ∧ isLineEnd c = false ∧ c.toNat < 128 :=
    List.forall_iff_forall_mem.1 (by decide)
  have hother : ended.codeOf '\n' = CharCategory.other.code := codeOf_facing ..
  have hshift : starred.codeOf '*' = CharCategory.mathShift.code := codeOf_facing ..
  have hbar : starred.codeOf '|' = .other := by
    rw [codeOf_facing, if_neg (by decide)]
    decide
  have hended := inFile_facing '\n' .other (verbChars false '\n' ['a'] [])
  have hstarred := inFile_facing '*' .mathShift (verbChars true '|' ['a'] ['\n'])
  refine ⟨⟨lookup_facing .., hother, hended, ?_⟩, lookup_facing .., hbar, hstarred, ?_⟩
  · exact process_verb_lineEnd rfl (lookup_facing ..) hended hother (by decide) (by decide) nofun hletter
      rfl
  · have hstar : starred.InFile _ _ ('*' :: (['|', 'a', '|'] ++ '\n' :: [])) := hstarred
    refine process_verb_lineEnd rfl (lookup_facing ..) hstar hshift (by decide) (by decide)
      (fun _ h => ?_) hbars rfl
    rcases h with h | h <;> cases h

end Typesetting

end Gullet
