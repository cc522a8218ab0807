import ProjectSetup.Json.Record
import ProjectSetup.Proofs.Json.Pretty

/-!
# Reading texts whose form is known

What the readers of booleans, strings, lists and records make of values that are written.  A
record is filled by the members of an object one behind the other (`Fills`): each of its fields
takes the next member, if that has its name, or stays as it is.

* `readRecord_of_fills`: an object that fills the fields of a record in their order is read as
  that record.
-/

namespace ProjectSetup.Json

open Written (ofValue ofItems ofMembers)

variable {α σ : Type}

/-! ### Booleans, strings and lists -/

theorem readBool_reads (value : Bool) : Reads readBool (ofValue (.bool value)) value := by
  intro text back htext
  cases value with
  | false =>
    obtain ⟨rest, hskip, -, hrest⟩ := exists_of_lexemes_bare htext
    refine ⟨rest, ?_, hrest⟩
    have hword : readKeyword ['a', 'l', 's', 'e'] ('a' :: 'l' :: 's' :: 'e' :: rest) = .ok rest :=
      readKeyword_append "alse".toList rest
    simp [readBool, hskip, hword, bind, Except.bind, pure, Except.pure]
  | true =>
    obtain ⟨rest, hskip, -, hrest⟩ := exists_of_lexemes_bare htext
    refine ⟨rest, ?_, hrest⟩
    have hword : readKeyword ['r', 'u', 'e'] ('r' :: 'u' :: 'e' :: rest) = .ok rest :=
      readKeyword_append "rue".toList rest
    simp [readBool, hskip, hword, bind, Except.bind, pure, Except.pure]

theorem readText_reads (string : String) : Reads readText (ofValue (.string string)) string := by
  intro text back htext
  obtain ⟨rest, hskip, -, hrest⟩ := exists_of_lexemes_quoted htext
  refine ⟨rest, ?_, hrest⟩
  have hread := (decode?_eq_some_iff.1 (decode?_escaped string)).2 rest
  simp [readText, hskip, hread, bind, Except.bind, pure, Except.pure]

/-- A string is no `null`, so that it is read as something. -/
theorem Reads.readOptional {inner : Reader α} {body : List Char} {value : α}
    (h : Reads inner (.quoted body) value) :
    Reads (readOptional inner) (.quoted body) (some value) := by
  intro text back htext
  obtain ⟨_, hskip, -, -⟩ := exists_of_lexemes_quoted htext
  obtain ⟨rest, hread, hrest⟩ := h (skipSpace text) back (by rw [lexemes_skipSpace, htext])
  refine ⟨rest, ?_, hrest⟩
  rw [hskip] at hread
  simp [Json.readOptional, hskip, hread, bind, Except.bind, pure, Except.pure]

theorem readsItems_of_forall₂ {inner : Reader α} {ws : List Written} {values : List α}
    (h : List.Forall₂ (Reads inner) ws values) :
    ∀ before : List α,
      ReadsItems (fun items text => do
        let (value, rest) ← inner text
        return (value :: items, rest)) ws before (values.reverse ++ before) := by
  induction h with
  | nil => exact fun before => .nil before
  | @cons w value ws values hvalue _ ih =>
    intro before
    rw [List.reverse_cons, List.append_assoc]
    exact .cons (hvalue.map (· :: before)) (ih (value :: before))

theorem readList_reads {inner : Reader α} {ws : List Written} {values : List α}
    (h : List.Forall₂ (Reads inner) ws values) : Reads (readList inner) (.array ws) values := by
  intro text back htext
  obtain ⟨left, rest, hskip, hread, hrest⟩ :=
    readItems_of_readsItems (readsItems_of_forall₂ h []) htext
  refine ⟨rest, ?_, hrest⟩
  rw [readList, hskip]
  dsimp only at hread ⊢
  rw [if_pos (by decide), hread]
  simp [bind, Except.bind, pure, Except.pure]

/-! ### Records -/

/-- The fields take the members in their order, and the ones that take none are left as they
are. -/
inductive Fills : List (RecordField σ) → List (List Char × Written) → σ → σ → Prop
  | nil (record : σ) : Fills [] [] record record
  | skip {field : RecordField σ} {fields : List (RecordField σ)}
      {ws : List (List Char × Written)} {before after : σ} :
      Fills fields ws before after → Fills (field :: fields) ws before after
  | take {field : RecordField σ} {fields : List (RecordField σ)} {body : List Char} {w : Written}
      {ws : List (List Char × Written)} {before next after : σ} :
      decode? body = some field.name → Reads (field.read before) w next →
      Fills fields ws next after → Fills (field :: fields) ((body, w) :: ws) before after

theorem readField_reads {fields : List (RecordField σ)} {field : RecordField σ} {body : List Char}
    {w : Written} {seen : List String} {before after : σ}
    (hfind : fields.find? (fun other => other.name == field.name) = some field)
    (hbody : decode? body = some field.name) (hseen : field.name ∉ seen)
    (hread : Reads (field.read before) w after) :
    ReadsMember (readField fields) body w (seen, before) (field.name :: seen, after) := by
  intro text back htext
  obtain ⟨behindKey, hskip, -, hback⟩ := exists_of_lexemes_quoted htext
  obtain ⟨behind, hcolon, hbehind⟩ := readColon_of_lexemes hback
  obtain ⟨rest, hread, hrest⟩ := hread behind back hbehind
  refine ⟨_, rest, hskip, ?_, hrest⟩
  have hkey := (decode?_eq_some_iff.1 hbody).2 behindKey
  simp [readField, hkey, hfind, hseen, hcolon, hread, bind, Except.bind, pure, Except.pure]

theorem find?_name {before after : List (RecordField σ)} {field : RecordField σ}
    (h : ((before ++ field :: after).map RecordField.name).Nodup) :
    (before ++ field :: after).find? (fun other => other.name == field.name) = some field := by
  rw [List.map_append, List.map_cons] at h
  have hbefore : before.find? (fun other => other.name == field.name) = none := by
    refine List.find?_eq_none.2 fun other hother => ?_
    have := (List.nodup_append.1 h).2.2 _ (List.mem_map_of_mem hother) _ List.mem_cons_self
    simpa using this
  rw [List.find?_append, hbefore, Option.none_or, List.find?_cons_of_pos (by simp)]

/-- The fields behind those that are done with are read, whatever names were seen among those. -/
theorem readsMembers_of_fills {fields : List (RecordField σ)} {ws : List (List Char × Written)}
    {before after : σ} (h : Fills fields ws before after) :
    ∀ (done : List (RecordField σ)) (seen : List String),
      ((done ++ fields).map RecordField.name).Nodup → seen ⊆ done.map RecordField.name →
      ∃ seen', ReadsMembers (readField (done ++ fields)) ws (seen, before) (seen', after) := by
  induction h with
  | nil record => exact fun done seen _ _ => ⟨seen, .nil _⟩
  | @skip field fields ws before after _ ih =>
    intro done seen hnames hseen
    rw [List.append_cons] at hnames ⊢
    refine ih (done ++ [field]) seen hnames fun name hname => ?_
    rw [List.map_append]
    exact List.mem_append_left _ (hseen hname)
  | @take field fields body w ws before next after hbody hread _ ih =>
    intro done seen hnames hseen
    have hfind := find?_name hnames
    have hnew : field.name ∉ seen := by
      intro hmem
      rw [List.map_append, List.map_cons] at hnames
      exact (List.nodup_append.1 hnames).2.2 _ (hseen hmem) _ List.mem_cons_self rfl
    rw [List.append_cons] at hnames hfind ⊢
    obtain ⟨seen', hmore⟩ := ih (done ++ [field]) (field.name :: seen) hnames fun name hname => by
      rw [List.map_append]
      rcases List.mem_cons.1 hname with rfl | hname
      · exact List.mem_append_right _ List.mem_cons_self
      · exact List.mem_append_left _ (hseen hname)
    exact ⟨seen', .cons (readField_reads hfind hbody hnew hread) hmore⟩

/-- **A record is read from an object whose members fill its fields** in their order. -/
theorem readRecord_of_fills {wanted : String} {fields : List (RecordField σ)}
    {ws : List (List Char × Written)} {empty record : σ}
    (hnames : (fields.map RecordField.name).Nodup) (h : Fills fields ws empty record) :
    Reads (readRecord wanted fields empty) (.object ws) record := by
  intro text back htext
  obtain ⟨seen, hmembers⟩ := readsMembers_of_fills h [] [] hnames (List.nil_subset _)
  obtain ⟨left, rest, hskip, hread, hrest⟩ := readMembers_of_readsMembers hmembers htext
  rw [List.nil_append] at hread
  refine ⟨rest, ?_, hrest⟩
  simp [readRecord, hskip, hread, bind, Except.bind, pure, Except.pure]

end ProjectSetup.Json
