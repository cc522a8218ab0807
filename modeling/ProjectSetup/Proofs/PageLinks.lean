import ProjectSetup.Proofs.Completion
import ProjectSetup.Proofs.Landing
import ProjectSetup.Proofs.SecondPass
import ProjectSetup.Proofs.Text.LineEnding

/-!
# The page after a pass

A pass puts two links into a page that has neither of them: one to the icon font below the last
link, indented as that one, and one to the fonts above the last line that closes the head.  The line
that is put in first is a link itself, but closes no head and is not the link to the fonts, so that
the places of both are told by the page as it was.

* `onText_linkIconFont`, `onText_linkFonts`: what the two edits make of a page.
* `pageLinked_of_insertion`: the two places in the page as it was.
* `pageLinks_of_pass`: the page after a pass.
-/

namespace ProjectSetup

open Text

variable {options : Options} {fonts lines above below : List String} {line : String}

/-! ### Links and heads -/

/-- The line starts with a link, perhaps behind an indentation. -/
def IsLink (line : String) : Prop :=
  StartsTag "<link".toList line.toList

/-- The line starts with the end of the head, perhaps behind an indentation. -/
def ClosesHead (line : String) : Prop :=
  StartsTag "</head>".toList line.toList

theorem linkTag_accepts_iff : (Matcher.pattern LineEdit.linkTag).accepts line = true ↔ IsLink line :=
  linkTag_iff

theorem closingHead_accepts_iff :
    (Matcher.pattern LineEdit.closingHead).accepts line = true ↔ ClosesHead line :=
  closingHead_iff

/-- A line starts with a tag exactly if the tag is what its indentation is followed by. -/
theorem startsTag_iff_trimStart {c : Char} {tag line : List Char} (hc : isBlank c = false) :
    StartsTag (c :: tag) line ↔ c :: tag <+: trimStart line := by
  constructor
  · rintro ⟨blanks, rest, rfl, hblanks⟩
    rw [trimStart, List.append_assoc, List.dropWhile_append_of_pos hblanks, List.cons_append,
      List.dropWhile_cons_of_neg (by simp [hc])]
    exact List.prefix_append _ _
  · rintro ⟨rest, hrest⟩
    refine ⟨indent line, rest, ?_, fun c hc => List.mem_takeWhile_imp hc⟩
    rw [List.append_assoc, hrest, indent_append_trimStart]

/-- A link closes no head. -/
theorem IsLink.not_closesHead (h : IsLink line) : ¬ ClosesHead line := by
  have hlink : "<link".toList <+: trimStart line.toList := (startsTag_iff_trimStart (by decide)).1 h
  intro hcloses
  have hhead : "</head>".toList <+: trimStart line.toList :=
    (startsTag_iff_trimStart (by decide)).1 hcloses
  exact absurd (List.prefix_of_prefix_length_le hlink hhead (by decide)) (by decide)

/-- The line with the icon font that is put below a link. -/
def iconLine (link : String) : String :=
  String.ofList (indent link.toList) ++ Plan.iconFontLink

/-- The line with the fonts that is put above the end of the head. -/
def fontLine (fonts : List String) : String :=
  "    " ++ Plan.fontLink fonts

theorem toList_iconLine (link : String) :
    (iconLine link).toList = indent link.toList ++ Plan.iconFontLink.toList := by
  rw [iconLine, String.toList_append, String.toList_ofList]

theorem isBlank_of_mem_indent {c : Char} {line : List Char} (h : c ∈ indent line) :
    isBlank c = true :=
  List.mem_takeWhile_imp h

theorem isLink_iconLine (link : String) : IsLink (iconLine link) := by
  obtain ⟨rest, hrest⟩ : "<link".toList <+: Plan.iconFontLink.toList := by decide +kernel
  refine ⟨indent link.toList, rest, ?_, fun _ => isBlank_of_mem_indent⟩
  rw [toList_iconLine, ← hrest, List.append_assoc]

/-- The link to the fonts is not part of the line with the icon font. -/
theorem not_infix_iconLine (fonts : List String) (link : String) :
    ¬ (Plan.fontLink fonts).toList <:+: (iconLine link).toList := by
  intro hin
  have hfront : Plan.fontFront.toList <+: (Plan.fontLink fonts).toList := by
    rw [toList_fontLink]
    exact List.prefix_append _ _
  have htag : "<".toList <+: (Plan.fontLink fonts).toList :=
    List.IsPrefix.trans (by decide) hfront
  rw [toList_iconLine] at hin
  have hicon := infix_of_infix_indent htag (fun _ => isBlank_of_mem_indent) hin
  have hnone : occursIn Plan.fontFront.toList Plan.iconFontLink.toList = false := by decide +kernel
  exact occursIn_eq_false_iff.1 hnone (hfront.isInfix.trans hicon)

/-! ### The lines of a page -/

/-- The lines of a page before and after the two links are put in, where the last link is `link` and
the last end of the head is `head`. -/
inductive PageLinked (fonts : List String) : List String → List String → Prop where
  | linkFirst {above between below : List String} {link head : String} :
    IsLink link → ClosesHead head → (∀ l ∈ between ++ head :: below, ¬ IsLink l) →
    (∀ l ∈ below, ¬ ClosesHead l) →
    PageLinked fonts (above ++ link :: (between ++ head :: below))
      (above ++ link :: iconLine link :: (between ++ fontLine fonts :: head :: below))
  | headFirst {above between below : List String} {link head : String} :
    IsLink link → ClosesHead head → (∀ l ∈ below, ¬ IsLink l) →
    (∀ l ∈ between ++ link :: below, ¬ ClosesHead l) →
    PageLinked fonts (above ++ head :: (between ++ link :: below))
      (above ++ fontLine fonts :: head :: (between ++ link :: iconLine link :: below))

/-- **The two places in the page as it was**: the last end of the head is the same with and without
the icon font below the last link. -/
theorem pageLinked_of_insertion (fonts : List String) {above below front back : List String}
    {link head : String} (hlink : IsLink link) (hlast : ∀ l ∈ below, ¬ IsLink l)
    (hhead : ClosesHead head) (hback : ∀ l ∈ back, ¬ ClosesHead l)
    (hsame : above ++ link :: below = front ++ head :: back) :
    ∃ front' back', above ++ link :: iconLine link :: below = front' ++ head :: back' ∧
      (∀ l ∈ back', ¬ ClosesHead l) ∧
      PageLinked fonts (above ++ link :: below) (front' ++ fontLine fonts :: head :: back') := by
  have hne : link ≠ head := fun heq => hlink.not_closesHead (heq ▸ hhead)
  rcases List.append_eq_append_iff.1 hsame with ⟨between, rfl, hrest⟩ | ⟨between, rfl, hrest⟩
  · -- the last link stands above the end of the head
    cases between with
    | nil => exact absurd (List.cons.inj hrest).1 hne
    | cons first between =>
      obtain ⟨rfl, rfl⟩ := List.cons.inj hrest
      refine ⟨above ++ link :: iconLine link :: between, back, by simp, hback, ?_⟩
      simpa using PageLinked.linkFirst hlink hhead hlast hback
  · -- the end of the head stands above the last link
    cases between with
    | nil => exact absurd (List.cons.inj hrest).1.symm hne
    | cons first between =>
      obtain ⟨rfl, rfl⟩ := List.cons.inj hrest
      refine ⟨front, between ++ link :: iconLine link :: below, by simp, fun l hl => ?_, ?_⟩
      · simp only [List.mem_append, List.mem_cons] at hl
        rcases hl with hl | rfl | rfl | hl
        · exact hback l (List.mem_append_left _ hl)
        · exact hlink.not_closesHead
        · exact (isLink_iconLine link).not_closesHead
        · exact hback l (List.mem_append_right _ (List.mem_cons_of_mem _ hl))
      · simpa using PageLinked.headFirst hlink hhead hlast hback

/-- Every line of the page with the links is a line of the page as it was, or one of the two. -/
theorem PageLinked.mem {new : List String} (h : PageLinked fonts lines new) {l : String}
    (hl : l ∈ new) : l ∈ lines ∨ l = fontLine fonts ∨ ∃ link ∈ lines, l = iconLine link := by
  by_cases hfont : l = fontLine fonts
  · exact .inr (.inl hfont)
  by_cases hicon : ∃ link ∈ lines, l = iconLine link
  · exact .inr (.inr hicon)
  left
  cases h with
  | @linkFirst above between below link head =>
    have hnot : l ≠ iconLine link := fun heq => hicon ⟨link, by simp, heq⟩
    simpa [hfont, hnot] using hl
  | @headFirst above between below link head =>
    have hnot : l ≠ iconLine link := fun heq => hicon ⟨link, by simp, heq⟩
    simpa [hfont, hnot] using hl

theorem noEnding_iconLine {link : String} (h : '\n' ∉ link.toList) :
    '\n' ∉ (iconLine link).toList ∧ (iconLine link).toList.getLast? ≠ some '\r' := by
  rw [toList_iconLine]
  constructor
  · rw [List.mem_append, not_or]
    exact ⟨fun hfeed => h ((List.takeWhile_prefix _).mem hfeed), lasting_linkIconFont.noFeed⟩
  · rw [List.getLast?_append_of_ne_nil _ (by decide +kernel)]
    decide +kernel

theorem noEnding_fontLine (h : ∀ font ∈ fonts, '\n' ∉ font.toList) :
    '\n' ∉ (fontLine fonts).toList ∧ (fontLine fonts).toList.getLast? ≠ some '\r' := by
  rw [fontLine, String.toList_append]
  constructor
  · rw [List.mem_append, not_or]
    exact ⟨by decide, (lasting_linkFonts h).noFeed⟩
  · rw [toList_fontLink, ← List.append_assoc, ← List.append_assoc,
      List.getLast?_append_of_ne_nil _ (by decide)]
    decide

/-- The lines of the page with the links are read as they were written. -/
theorem PageLinked.linesOf_eq {new : List String} (h : PageLinked fonts lines new)
    (hfonts : ∀ font ∈ fonts, '\n' ∉ font.toList)
    (hlines : ∀ l ∈ lines, '\n' ∉ l.toList ∧ l.toList.getLast? ≠ some '\r') :
    linesOf (some (joinLines new)) = new := by
  refine linesOf_joinLines_self ?_ fun l hl => ?_
  · cases h <;> simp
  · rcases h.mem hl with hl | rfl | ⟨link, hlink, rfl⟩
    · exact hlines l hl
    · exact noEnding_fontLine hfonts
    · exact noEnding_iconLine (hlines link hlink).1

/-! ### The two edits -/

/-- The icon font is linked below the last link. -/
theorem apply_linkIconFont {link : String} (hlink : IsLink link) (hlast : ∀ l ∈ below, ¬ IsLink l)
    (hnone : ∀ l ∈ above ++ link :: below, ¬ Plan.iconFontLink.toList <:+: l.toList) :
    (LineEdit.insertLink Plan.iconFontLink .afterLastLink).apply (above ++ link :: below) =
      .rewritten (above ++ link :: iconLine link :: below) := by
  have hfind : (LineEdit.linkAnchor .afterLastLink).find? (above ++ link :: below) =
      some above.length := by
    refine lastIdx?_there (linkTag_accepts_iff.2 hlink) fun l hl => ?_
    rw [← Bool.not_eq_true]
    exact fun haccepts => hlast l hl (linkTag_accepts_iff.1 haccepts)
  have hfound : containsAny (above ++ link :: below) [Plan.iconFontLink] = false := by
    rw [containsAny_singleton, Matcher.foundIn_eq_false_iff]
    exact fun l hl => occursIn_eq_false_iff.2 (hnone l hl)
  rw [LineEdit.apply, LineEdit.applyLink, hfound, if_neg Bool.false_ne_true, hfind]
  dsimp only
  rw [LineEdit.placeLink, List.getD_append_right _ _ _ _ le_rfl, Nat.sub_self, List.getD_cons_zero,
    insertIdx_below]
  rfl

/-- The fonts are linked above the last end of the head. -/
theorem apply_linkFonts {head : String} (hhead : ClosesHead head)
    (hlast : ∀ l ∈ below, ¬ ClosesHead l)
    (hnone : ∀ l ∈ above ++ head :: below, ¬ (Plan.fontLink fonts).toList <:+: l.toList) :
    (LineEdit.insertLink (Plan.fontLink fonts) .beforeClosingHead).apply (above ++ head :: below) =
      .rewritten (above ++ fontLine fonts :: head :: below) := by
  have hfind : (LineEdit.linkAnchor .beforeClosingHead).find? (above ++ head :: below) =
      some above.length := by
    refine lastIdx?_there (closingHead_accepts_iff.2 hhead) fun l hl => ?_
    rw [← Bool.not_eq_true]
    exact fun haccepts => hlast l hl (closingHead_accepts_iff.1 haccepts)
  have hfound : containsAny (above ++ head :: below) [Plan.fontLink fonts] = false := by
    rw [containsAny_singleton, Matcher.foundIn_eq_false_iff]
    exact fun l hl => occursIn_eq_false_iff.2 (hnone l hl)
  rw [LineEdit.apply, LineEdit.applyLink, hfound, if_neg Bool.false_ne_true, hfind]
  dsimp only
  rw [LineEdit.placeLink, insertIdx_above]
  rfl

/-! ### The page after a pass -/

/-- A page whose carriage returns all stand in front of line feeds, with a link and an end of the
head, and without the links to the icon font and the fonts. -/
structure Linkable (fonts : List String) (text : String) : Prop where
  paired : PairedReturns text.toList
  link : ∃ l ∈ splitLines text, IsLink l
  head : ∃ l ∈ splitLines text, ClosesHead l
  noIcons : ¬ Plan.iconFontLink.toList <:+: text.toList
  noFonts : ¬ (Plan.fontLink fonts).toList <:+: text.toList

variable {root : Place} {tree : Tree} {report : Report} {text : String}

/-- The last link and the last end of the head. -/
theorem exists_last_link (h : ∃ l ∈ lines, IsLink l) :
    ∃ above link below, lines = above ++ link :: below ∧ IsLink link ∧
      ∀ l ∈ below, ¬ IsLink l := by
  obtain ⟨l, hl, hlink⟩ := h
  let anchor : Anchor := ⟨.pattern LineEdit.linkTag, .backward⟩
  have hfound : anchor.matcher.foundIn lines = true :=
    Matcher.foundIn_iff.2 ⟨l, hl, linkTag_accepts_iff.2 hlink⟩
  obtain ⟨above, link, below, rfl, -, hat⟩ := exists_find?_of_foundIn hfound
  refine ⟨above, link, below, rfl, linkTag_accepts_iff.1 hat.accepts, fun l hl hlink => ?_⟩
  rw [← linkTag_accepts_iff, hat.last rfl l hl] at hlink
  cases hlink

theorem exists_last_head (h : ∃ l ∈ lines, ClosesHead l) :
    ∃ above head below, lines = above ++ head :: below ∧ ClosesHead head ∧
      ∀ l ∈ below, ¬ ClosesHead l := by
  obtain ⟨l, hl, hhead⟩ := h
  let anchor : Anchor := ⟨.pattern LineEdit.closingHead, .backward⟩
  have hfound : anchor.matcher.foundIn lines = true :=
    Matcher.foundIn_iff.2 ⟨l, hl, closingHead_accepts_iff.2 hhead⟩
  obtain ⟨above, head, below, rfl, -, hat⟩ := exists_find?_of_foundIn hfound
  refine ⟨above, head, below, rfl, closingHead_accepts_iff.1 hat.accepts, fun l hl hhead => ?_⟩
  rw [← closingHead_accepts_iff, hat.last rfl l hl] at hhead
  cases hhead

/-- The steps on a page that can take both links. -/
theorem through_page (h : Linkable options.fonts text) (hfonts : options.fonts ≠ []) :
    ∃ new, PageLinked options.fonts (splitLines text) new ∧
      textThrough Plan.indexPage (Plan.steps options) (some text) = some (joinLines new) ∧
      eventsThrough Plan.indexPage (Plan.steps options) (some text) =
        [⟨"material icons stylesheet", Plan.indexPage, .applied⟩,
          ⟨"font stylesheet", Plan.indexPage, .applied⟩] := by
  obtain ⟨above, link, below, hlines, hlink, hlast⟩ := exists_last_link h.link
  obtain ⟨front, head, back, hsame, hhead, hback⟩ := exists_last_head h.head
  rw [hlines] at hsame
  obtain ⟨front', back', hmid, hback', hlinked⟩ :=
    pageLinked_of_insertion options.fonts hlink hlast hhead hback hsame
  have hicon : Plan.linkIconFont.edit.onText (some text) =
      .rewritten (joinLines (above ++ link :: iconLine link :: below)) := by
    refine onText_lines_eq_rewritten_iff.2 ⟨_, ?_, rfl⟩
    rw [linesOf, hlines]
    refine apply_linkIconFont hlink hlast fun l hl hin => h.noIcons ?_
    exact hin.trans (infix_of_mem_splitLines (hlines ▸ hl))
  have hread : linesOf (some (joinLines (above ++ link :: iconLine link :: below))) =
      above ++ link :: iconLine link :: below := by
    have hold : ∀ l ∈ above ++ link :: below, '\n' ∉ l.toList ∧ l.toList.getLast? ≠ some '\r' :=
      fun l hl => h.paired.noEnding (hlines ▸ hl)
    refine linesOf_joinLines_self (by simp) fun l hl => ?_
    by_cases hl' : l = iconLine link
    · exact hl' ▸ noEnding_iconLine (hold link (by simp)).1
    · refine hold l ?_
      simpa [hl'] using hl
  have hfont : (Plan.linkFonts options.fonts).edit.onText
      (some (joinLines (above ++ link :: iconLine link :: below))) =
        .rewritten (joinLines (front' ++ fontLine options.fonts :: head :: back')) := by
    refine onText_lines_eq_rewritten_iff.2 ⟨_, ?_, rfl⟩
    rw [hread, hmid]
    refine apply_linkFonts hhead hback' fun l hl hin => ?_
    rw [← hmid] at hl
    by_cases hl' : l = iconLine link
    · exact not_infix_iconLine options.fonts link (hl' ▸ hin)
    · refine h.noFonts (hin.trans (infix_of_mem_splitLines ?_))
      rw [hlines]
      simpa [hl'] using hl
  rw [← hlines] at hlinked
  have hpage : Plan.linkIconFont.file = Plan.indexPage := rfl
  have hpage' : (Plan.linkFonts options.fonts).file = Plan.indexPage := rfl
  refine ⟨_, hlinked, ?_, ?_⟩
  · rw [textThrough_page, if_neg (by simpa using hfonts), FileEdit.textAfter_of_rewritten hicon,
      FileEdit.textAfter_of_rewritten hfont]
  · rw [← eventsThrough_filter, (filter_steps options).2.1, if_neg (by simpa using hfonts),
      eventsThrough, if_pos hpage, eventsThrough, if_pos hpage', eventsThrough,
      Step.textAfter_some, FileEdit.textAfter_of_rewritten hicon,
      Step.verdictOn_of_rewritten hicon, Step.verdictOn_of_rewritten hfont]
    rfl

/-- **The page after a pass** that comes to its end: its lines, with the line endings normalised, and
the two links at the last link and the last end of the head. -/
theorem pageLinks_of_pass (hfonts : options.fonts ≠ [])
    (hone : ∀ font ∈ options.fonts, '\n' ∉ font.toList)
    (hok : (runPass root (Plan.steps options) tree).result = .ok report)
    (htext : tree.textOf root Plan.indexPage = .ok (some text)) (h : Linkable options.fonts text) :
    ∃ new, PageLinked options.fonts (splitLines text) new ∧ splitLines (joinLines new) = new ∧
      (joinLines (splitLines text)).toList = normalEndings text.toList ∧
      (runPass root (Plan.steps options) tree).tree.textOf root Plan.indexPage =
        .ok (some (joinLines new)) ∧
      report.events.filter (fun event => event.file = Plan.indexPage) =
        [⟨"material icons stylesheet", Plan.indexPage, .applied⟩,
          ⟨"font stylesheet", Plan.indexPage, .applied⟩] := by
  obtain ⟨hafter, hevents⟩ := runPass_on (by decide) htext hok
  obtain ⟨new, hlinked, hthrough, happlied⟩ := through_page h hfonts
  rw [hthrough] at hafter
  rw [happlied] at hevents
  exact ⟨new, hlinked, hlinked.linesOf_eq hone fun _ => h.paired.noEnding,
    h.paired.toList_joinLines, hafter, hevents⟩

/-- Options with one font alone. -/
def latoFont : Options :=
  { fonts := ["Lato"] }

/-- A page with two links in its head, and line endings of two characters. -/
def shellText : String :=
  "<head>\r\n  <meta charset=\"utf-8\">\r\n  <link rel=\"icon\">\r\n\t<link rel=\"x\">\r\n</head>\r\n"

/-- A project with the page and an entry script. -/
def shellProject : Tree :=
  .directory
    [("public", .directory [("index.html", .file (.text shellText))]),
      ("src", .directory [("main.js", .file (.text ""))])]

theorem pageLinks_of_pass_lato :
    latoFont.fonts ≠ [] ∧ (∀ font ∈ latoFont.fonts, '\n' ∉ font.toList) ∧
      shellProject.textOf ⟨".", []⟩ Plan.indexPage = .ok (some shellText) ∧
      Linkable latoFont.fonts shellText ∧
      ∃ report, (runPass ⟨".", []⟩ (Plan.steps latoFont) shellProject).result = .ok report ∧
        ∃ new, PageLinked latoFont.fonts (splitLines shellText) new ∧
          splitLines (joinLines new) = new ∧
          (joinLines (splitLines shellText)).toList = normalEndings shellText.toList ∧
          (runPass ⟨".", []⟩ (Plan.steps latoFont) shellProject).tree.textOf ⟨".", []⟩
            Plan.indexPage = .ok (some (joinLines new)) ∧
          report.events.filter (fun event => event.file = Plan.indexPage) =
            [⟨"material icons stylesheet", Plan.indexPage, .applied⟩,
              ⟨"font stylesheet", Plan.indexPage, .applied⟩] := by
  have hfonts : latoFont.fonts ≠ [] := by decide
  have hone : ∀ font ∈ latoFont.fonts, '\n' ∉ font.toList := by decide
  have htext : shellProject.textOf ⟨".", []⟩ Plan.indexPage = .ok (some shellText) := rfl
  have hlinkable : Linkable latoFont.fonts shellText := by
    refine ⟨by decide +kernel, ⟨"\t<link rel=\"x\">", by decide +kernel, ?_⟩,
      ⟨"</head>", by decide +kernel, ?_⟩, ?_, ?_⟩
    · exact linkTag_iff.1 (by decide +kernel)
    · exact closingHead_iff.1 (by decide +kernel)
    · exact occursIn_eq_false_iff.1 (by decide +kernel)
    · exact occursIn_eq_false_iff.1 (by decide +kernel)
  have hlead : shellProject.LeadsTo (Place.parts ⟨".", []⟩) [] := Tree.leadsTo_of_follow rfl rfl
  have hthere : ∀ step ∈ Plan.steps latoFont,
      ∃ text, shellProject.textOf ⟨".", []⟩ step.file = .ok (some text) := by
    intro step hstep
    have hsteps : Plan.steps latoFont = [Plan.importPlugin latoFont, Plan.linkIconFont,
        Plan.linkFonts ["Lato"]] := rfl
    rw [hsteps] at hstep
    simp only [List.mem_cons, List.not_mem_nil, or_false] at hstep
    rcases hstep with rfl | rfl | rfl <;> exact ⟨_, rfl⟩
  obtain ⟨events, hevents⟩ :=
    runSteps_ok hlead (fun _ hs _ => requires_eq hs) (fun _ => file_mem_files) hthere
  have hok : (runPass ⟨".", []⟩ (Plan.steps latoFont) shellProject).result = .ok ⟨events⟩ :=
    result_runPass_eq_ok_iff.2 hevents
  exact ⟨hfonts, hone, htext, hlinkable, ⟨events⟩, hok,
    pageLinks_of_pass hfonts hone hok htext hlinkable⟩

end ProjectSetup
