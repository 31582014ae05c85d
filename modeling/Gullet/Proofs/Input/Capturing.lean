import Gullet.Proofs.Input.Grafting
import Gullet.Proofs.Lexer.Accounting

/-!
# Captures

A capture takes what is put in front of the source that it stands on. To read from both gives the same as
if the tokens had been put in front of that source itself, as long as the source is not dropped: a file
that has been read to its end is dropped if it is on top, but not if a capture stands on it.
-/

namespace Gullet

namespace InputSource

/-- The keys of a source, if it is a file. -/
def keys? (s : InputSource) : Option KeyRange :=
  match s.kind with
  | .file lexer => some lexer.keys
  | _ => none

/-- The source with more tokens in front. -/
def behind (s : InputSource) (p : Pending) : InputSource :=
  { s with pending := s.pending.pushAll p.tokens }

variable {s : InputSource} {p : Pending}

@[simp] theorem keys?_behind : (s.behind p).keys? = s.keys? := rfl

@[simp] theorem isFile_behind : (s.behind p).isFile = s.isFile := rfl

@[simp] theorem kind_behind : (s.behind p).kind = s.kind := rfl

theorem behind_of_nil (h : p.tokens = []) : s.behind p = s := by
  have hpending : s.pending.pushAll p.tokens = s.pending := Pending.ext_tokens (by rw [h]; rfl)
  unfold behind
  rw [hpending]

end InputSource

namespace Input

/-! ### Which files are open -/

/-- The keys of the sources that are files, topmost source first. -/
def keysOf (sources : List InputSource) : List (Option KeyRange) := sources.map InputSource.keys?

/-- The keys of the source that stands on the given number of other ones, if it is a file. -/
def keysAt (height : Nat) (sources : List InputSource) : Option KeyRange :=
  ((keysOf sources).reverse[height]?).join

section

variable {height : Nat} {keys : KeyRange} {sources rest : List InputSource}

@[simp] theorem keysOf_cons (s : InputSource) (below : List InputSource) :
    keysOf (s :: below) = s.keys? :: keysOf below := rfl

@[simp] theorem length_keysOf : (keysOf sources).length = sources.length := List.length_map _

theorem keysAt_of_le (h : sources.length ≤ height) : keysAt height sources = none := by
  unfold keysAt
  rw [List.getElem?_eq_none (by simpa using h)]
  rfl

theorem keysAt_append (above : List InputSource) (s : InputSource) (below : List InputSource) :
    keysAt below.length (above ++ s :: below) = s.keys? := by
  simp [keysAt, keysOf]

/-- A file among the sources is the topmost one or one of those below. -/
theorem keysAt_cons {s : InputSource} (h : keysAt height (s :: sources) = some keys) :
    s.keys? = some keys ∨ keysAt height sources = some keys := by
  unfold keysAt at h ⊢
  rw [keysOf_cons, List.reverse_cons] at h
  rcases Nat.lt_or_ge height (keysOf sources).reverse.length with hlt | hle
  · rw [List.getElem?_append_left hlt] at h
    exact .inr h
  · rw [List.getElem?_append_right hle] at h
    cases hrest : height - (keysOf sources).reverse.length with
    | zero =>
      rw [hrest] at h
      exact .inl h
    | succ k =>
      rw [hrest] at h
      cases h

/-- Where sources are dropped from above, files stay where they are or are dropped. -/
theorem keysAt_of_suffix (h : keysOf rest <:+ keysOf sources) (hkeys : keysAt height rest = some keys) :
    keysAt height sources = some keys := by
  obtain ⟨dropped, hsources⟩ := h
  have hlt : height < rest.length := by
    refine Nat.lt_of_not_le fun hle => ?_
    rw [keysAt_of_le hle] at hkeys
    cases hkeys
  unfold keysAt at hkeys ⊢
  rw [← hsources, List.reverse_append, List.getElem?_append_left (by simpa using hlt)]
  exact hkeys

end

/-! ### Reading and files -/

section

variable (code : Char → CatCode) (report : Bool)

variable {code report} in
theorem read_of_pop {onTop : Bool} {s : InputSource} {below : List InputSource} {t : Token}
    {p : Pending} (h : s.pending.pop? = some (t, p)) :
    read code report onTop (s :: below) =
      { result := .ok (some t), sources := { s with pending := p } :: below } := by
  rw [Input.read, h]

variable {code report} in
theorem read_capture {onTop : Bool} {below : List InputSource} {p : Pending} (hp : p.tokens = []) :
    read code report onTop ({ pending := p, kind := .capture } :: below) =
      { read code report false below with
        sources := { pending := p, kind := .capture } :: (read code report false below).sources } := by
  rw [Input.read, (Pending.pop?_eq_none_iff p).2 hp]

/-- A file that is read keeps its keys. -/
theorem keys_next (lx : Lexer) :
    (if report then (lx.next code).2.takeComments else ([], (lx.next code).2)).2.keys = lx.keys := by
  have hnext := (lx.passes_next code).1.keys
  split
  · exact hnext
  · exact hnext

/-- Below another source no file is dropped. -/
theorem keysOf_read_false (sources : List InputSource) :
    keysOf (read code report false sources).sources = keysOf sources := by
  induction sources with
  | nil => rfl
  | cons s below ih =>
    obtain ⟨pending, kind⟩ := s
    unfold Input.read
    split
    · rfl
    · cases kind with
      | region mode => rfl
      | bottom => exact congrArg (none :: ·) ih
      | capture => exact congrArg (none :: ·) ih
      | file lexer =>
        have hkeys := congrArg some (keys_next code report lexer)
        dsimp only
        split
        · exact congrArg (· :: keysOf below) hkeys
        · exact congrArg (· :: keysOf below) hkeys
        · rw [if_neg (by simp)]
          show some _ :: keysOf _ = some _ :: keysOf _
          rw [ih]
          exact congrArg (· :: keysOf below) hkeys

/-- On top it makes no difference, unless a file is dropped. -/
theorem read_true_cons (s : InputSource) (below : List InputSource) :
    read code report true (s :: below) = read code report false (s :: below) ∨
      s.keys?.isSome = true ∧
        (read code report true (s :: below)).sources = (read code report true below).sources := by
  obtain ⟨pending, kind⟩ := s
  unfold Input.read
  split
  · exact .inl rfl
  · cases kind with
    | region mode => exact .inl rfl
    | bottom => exact .inl rfl
    | capture => exact .inl rfl
    | file lexer =>
      dsimp only
      split
      · exact .inl rfl
      · exact .inl rfl
      · cases below with
        | nil => exact .inl rfl
        | cons s' below => exact .inr ⟨rfl, rfl⟩

theorem keysOf_read (onTop : Bool) (sources : List InputSource) :
    keysOf (read code report onTop sources).sources <:+ keysOf sources := by
  cases onTop with
  | false => simp only [keysOf_read_false, List.suffix_refl]
  | true =>
    induction sources with
    | nil => exact List.suffix_refl _
    | cons s below ih =>
      rcases read_true_cons code report s below with h | ⟨-, h⟩
      · simp only [h, keysOf_read_false, List.suffix_refl]
      · rw [h, keysOf_cons]
        exact ih.trans (List.suffix_cons _ _)

end

theorem keysOf_endTopFile (sources : List InputSource) :
    keysOf (endTopFile sources) = keysOf sources := by
  induction sources with
  | nil => rfl
  | cons s below ih =>
    obtain ⟨pending, kind⟩ := s
    cases kind with
    | file lexer =>
      rw [endTopFile_of_file]
      rfl
    | _ =>
      rw [endTopFile_of_isFile rfl]
      exact congrArg (none :: ·) ih

/-! ### Sources with a capture and without -/

/-- The same sources stand on a source with tokens in front of it, and on that source with a capture of
these tokens. The source has the given keys, and stands on as many others as is said. -/
inductive Captured (height : Nat) (keys? : Option KeyRange) :
    List InputSource → List InputSource → Prop where
  | capture (p : Pending) (s : InputSource) (below : List InputSource) (hheight : below.length = height)
      (hkeys : s.keys? = keys?) :
      Captured height keys? (s.behind p :: below) ({ pending := p, kind := .capture } :: s :: below)
  | cons (c : InputSource) {x y : List InputSource} (h : Captured height keys? x y) :
      Captured height keys? (c :: x) (c :: y)

namespace Captured

variable {height : Nat} {keys? : Option KeyRange} {x y : List InputSource}

/-- What stands above the capture, and what below. -/
theorem exists_append (h : Captured height keys? x y) :
    ∃ above p s below, below.length = height ∧ s.keys? = keys? ∧ x = above ++ s.behind p :: below ∧
      y = above ++ { pending := p, kind := .capture } :: s :: below := by
  induction h with
  | capture p s below hheight hkeys => exact ⟨[], p, s, below, hheight, hkeys, rfl, rfl⟩
  | cons c h ih =>
    obtain ⟨above, p, s, below, hheight, hkeys, rfl, rfl⟩ := ih
    exact ⟨c :: above, p, s, below, hheight, hkeys, rfl, rfl⟩

theorem keysAt (h : Captured height keys? x y) : Input.keysAt height x = keys? := by
  obtain ⟨above, p, s, below, rfl, rfl, rfl, -⟩ := h.exists_append
  exact keysAt_append above (s.behind p) below

theorem fileCount (h : Captured height keys? x y) :
    Input.fileCount ⟨y⟩ = Input.fileCount ⟨x⟩ := by
  obtain ⟨above, p, s, below, -, -, rfl, rfl⟩ := h.exists_append
  have hcapture : InputSource.isFile { pending := p, kind := .capture } = false := rfl
  unfold Input.fileCount
  simp [List.countP_append, List.countP_cons, hcapture]
  rfl

theorem expansionEnabled (h : Captured height keys? x y) :
    Input.expansionEnabled ⟨y⟩ = Input.expansionEnabled ⟨x⟩ := by
  induction h with
  | capture p s below hheight hkeys => cases s with
    | mk pending kind => cases kind <;> rfl
  | cons c h ih =>
    obtain ⟨pending, kind⟩ := c
    cases kind with
    | file lexer => rfl
    | region mode => rfl
    | bottom => exact ih
    | capture => exact ih

theorem pushAll (ts : List Token) (h : Captured height keys? x y) :
    Captured height keys? (Input.pushAll ⟨x⟩ ts).sources (Input.pushAll ⟨y⟩ ts).sources := by
  cases h with
  | capture p s below hheight hkeys =>
    have hbehind : (s.behind p).pending.pushAll ts = s.pending.pushAll (p.pushAll ts).tokens :=
      Pending.ext_tokens (List.append_assoc ts p.tokens s.pending.tokens).symm
    show Captured height keys?
      ({ s.behind p with pending := (s.behind p).pending.pushAll ts } :: below) _
    rw [hbehind]
    exact .capture (p.pushAll ts) s below hheight hkeys
  | cons c h => exact .cons _ h

theorem endTopFile (h : Captured height keys? x y) :
    Captured height keys? (Input.endTopFile x) (Input.endTopFile y) := by
  induction h with
  | capture p s below hheight hkeys =>
    obtain ⟨pending, kind⟩ := s
    rw [endTopFile_of_isFile (c := { pending := p, kind := .capture }) rfl]
    cases kind with
    | file lexer =>
      rw [endTopFile_of_file]
      unfold InputSource.behind
      rw [endTopFile_of_file]
      exact .capture p { pending, kind := .file lexer.discardRest } below hheight hkeys
    | _ =>
      unfold InputSource.behind
      rw [endTopFile_of_isFile rfl, endTopFile_of_isFile rfl]
      exact .capture p _ _ ((length_endTopFile below).trans hheight) hkeys
  | @cons c x y h ih =>
    obtain ⟨pending, kind⟩ := c
    cases kind with
    | file lexer =>
      rw [endTopFile_of_file, endTopFile_of_file]
      exact .cons _ h
    | _ =>
      rw [endTopFile_of_isFile rfl, endTopFile_of_isFile rfl]
      exact .cons _ ih

/-- An empty capture on sources with the right keys. -/
theorem of_keysOf {s : InputSource} {p : Pending} {below rest : List InputSource}
    (hheight : below.length = height) (hp : p.tokens = [])
    (h : keysOf rest = s.keys? :: keysOf below) :
    Captured height s.keys? rest ({ pending := p, kind := .capture } :: rest) := by
  cases rest with
  | nil => cases h
  | cons s' below' =>
    obtain ⟨hkeys, hbelow⟩ := List.cons.inj h
    have hlength : below'.length = below.length := by
      simpa using congrArg List.length hbelow
    have hcaptured := Captured.capture p s' below' (hlength.trans hheight) hkeys
    rwa [InputSource.behind_of_nil hp] at hcaptured

/-- The first of the tokens in front of a source. -/
theorem pop?_behind {s : InputSource} {p q : Pending} {t : Token} (h : p.pop? = some (t, q)) :
    (s.behind p).pending.pop? = some (t, (s.behind q).pending) := by
  have hpending : (s.behind p).pending = (s.behind q).pending.push t :=
    Pending.ext_tokens (congrArg (· ++ s.pending.tokens) (Pending.tokens_of_pop? h))
  rw [hpending, Pending.pop?_push]

/-- The same is read, unless the source is a file that is dropped. -/
theorem read (code : Char → CatCode) (report onTop : Bool) (h : Captured height keys? x y) :
    (onTop = true ∧ keys?.isSome = true ∧
        (Input.read code report onTop x).sources.length ≤ height) ∨
      (Input.read code report onTop y).result = (Input.read code report onTop x).result ∧
        (Input.read code report onTop y).comments = (Input.read code report onTop x).comments ∧
        Captured height keys? (Input.read code report onTop x).sources
          (Input.read code report onTop y).sources := by
  induction h generalizing onTop with
  | capture p s below hheight hkeys =>
    subst hkeys
    cases hpop : p.pop? with
    | some popped =>
      obtain ⟨t, q⟩ := popped
      rw [read_of_pop (pop?_behind hpop), read_of_pop (s := { pending := p, kind := .capture }) hpop]
      exact .inr ⟨rfl, rfl, .capture q s below hheight rfl⟩
    | none =>
      have hp := (Pending.pop?_eq_none_iff p).1 hpop
      have hbelow := of_keysOf hheight hp (keysOf_read_false code report (s :: below))
      rw [InputSource.behind_of_nil hp, read_capture hp]
      cases onTop with
      | false => exact .inr ⟨rfl, rfl, hbelow⟩
      | true =>
        rcases read_true_cons code report s below with heq | ⟨hfile, hdropped⟩
        · rw [heq]
          exact .inr ⟨rfl, rfl, hbelow⟩
        · have hlength := (keysOf_read code report true below).length_le
          rw [length_keysOf, length_keysOf] at hlength
          rw [hdropped, ← hheight]
          exact .inl ⟨rfl, hfile, hlength⟩
  | @cons c x y h ih =>
    have hx : x.isEmpty = false := by cases h <;> rfl
    have hy : y.isEmpty = false := by cases h <;> rfl
    -- what is read further down, with another source on it
    have hfalse := (ih false).resolve_left fun hlost => nomatch hlost.1
    unfold Input.read
    split
    · exact .inr ⟨rfl, rfl, .cons _ h⟩
    · split
      · exact .inr ⟨rfl, rfl, .cons _ h⟩
      · exact .inr ⟨hfalse.1, hfalse.2.1, .cons _ hfalse.2.2⟩
      · exact .inr ⟨hfalse.1, hfalse.2.1, .cons _ hfalse.2.2⟩
      · dsimp only
        split
        · exact .inr ⟨rfl, rfl, .cons _ h⟩
        · exact .inr ⟨rfl, rfl, .cons _ h⟩
        · rw [hx, hy]
          split
          · rename_i htop
            have hon : onTop = true := by simpa using htop
            rcases ih true with ⟨-, hfile, hlength⟩ | ⟨hresult, hcomments, hsources⟩
            · exact .inl ⟨hon, hfile, hlength⟩
            · exact .inr ⟨hresult, congrArg (_ ++ ·) hcomments, hsources⟩
          · exact .inr ⟨hfalse.1, congrArg (_ ++ ·) hfalse.2.1, .cons _ hfalse.2.2⟩

/-- When the capture has been taken away, what was in it can be put in front of the sources, if nothing
was in it or nothing stands above the source. -/
theorem takeCapture (h : Captured height keys? x y) :
    ∃ ts z, Input.takeCapture (height + 1) y = (ts, z) ∧
      (ts = [] ∨ z.length = height + 1 → Input.pushAll ⟨z⟩ ts = ⟨x⟩) := by
  obtain ⟨above, p, s, below, hheight, -, rfl, rfl⟩ := h.exists_append
  have htake : Input.takeCapture (height + 1) (above ++ { pending := p, kind := .capture } :: s :: below) =
      (p.tokens, above ++ s :: below) := by
    have hsplit := splitAt_append_cons above { pending := p, kind := .capture } (s :: below)
    rw [List.length_cons, hheight] at hsplit
    unfold Input.takeCapture
    rw [hsplit]
    simp
  refine ⟨_, _, htake, fun hfront => ?_⟩
  have hbehind : Input.pushAll ⟨s :: below⟩ p.tokens = ⟨s.behind p :: below⟩ := rfl
  cases above with
  | nil => exact hbehind
  | cons c above =>
    rcases hfront with hnil | hlength
    · have hpending : c.pending.pushAll [] = c.pending := Pending.ext_tokens rfl
      rw [InputSource.behind_of_nil hnil, hnil]
      unfold Input.pushAll mapTop
      dsimp only [List.cons_append]
      rw [hpending]
    · simp only [List.length_append, List.length_cons] at hlength
      omega

end Captured

end Input

end Gullet
