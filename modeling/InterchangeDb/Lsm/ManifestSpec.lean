import InterchangeDb.Lsm.Manifest

/-! Replaying the text of a list of edits applies them in order. -/
namespace InterchangeDb
open List
namespace Manifest

inductive Edit where
  | add (level : Nat) (table : SSTableMeta)
  | del (sstId : Nat)

namespace Edit

def line : Edit → List Char
  | .add level table => addLine level table
  | .del sstId => delLine sstId

def apply (s : LevelState) : Edit → LevelState
  | .add level table => applyAdd s level table
  | .del sstId => applyDel s sstId

/-- What the fields of a line can hold: an empty key has no hex digits and so no field. -/
def Valid : Edit → Prop
  | .add level table => level < maxLevelCount ∧ table.id < 2^64 ∧ table.firstKey ≠ [] ∧ table.lastKey ≠ [] ∧
      table.fileSize < 2^64 ∧ table.entryCount < 2^64
  | .del sstId => sstId < 2^64

private def parts : Edit → List (List Char)
  | .add level table => ["ADD".toList, Text.decimal level, Text.decimal table.id, Text.hexEncode table.firstKey,
      Text.hexEncode table.lastKey, Text.decimal table.fileSize, Text.decimal table.entryCount]
  | .del sstId => ["DEL".toList, Text.decimal sstId]

private theorem line_eq (e : Edit) : e.line = Text.unwords e.parts ++ ['\n'] := by
  cases e <;> rfl

private theorem isWord_parts {e : Edit} (h : e.Valid) : ∀ w ∈ e.parts, Text.IsWord w := by
  cases e with
  | add level table =>
    obtain ⟨-,-,hfirst,hlast,-,-⟩ := h
    simp only [parts,forall_mem_cons,not_mem_nil,false_implies,implies_true,and_true]
    exact ⟨by decide,Text.isWord_decimal _,Text.isWord_decimal _,Text.isWord_hexEncode hfirst,
      Text.isWord_hexEncode hlast,Text.isWord_decimal _,Text.isWord_decimal _⟩
  | del sstId =>
    simp only [parts,forall_mem_cons,not_mem_nil,false_implies,implies_true,and_true]
    exact ⟨by decide,Text.isWord_decimal _⟩

end Edit

private theorem trim_unwords {ws : List (List Char)} (hne : ws ≠ []) (h : ∀ w ∈ ws, Text.IsWord w) :
    trim (Text.unwords ws) = Text.unwords ws := by
  obtain ⟨⟨c,cs,hc,hcb⟩,ds,d,hd,hdb⟩ := Text.unwords_ends hne h
  have hleft : (Text.unwords ws).dropWhile Char.isWhitespace = Text.unwords ws := by
    rw [hc,dropWhile_cons_of_neg (by simp [hcb])]
  rw [trim,hleft,hd,reverse_append,reverse_singleton,singleton_append,
    dropWhile_cons_of_neg (by simp [hdb]),reverse_cons,reverse_reverse]

private theorem field_decimal {name : String} {n : Nat} (h : n < 2^64) : field name (Text.decimal n) = .ok n := by
  rw [field,Text.parseNat_decimal h]

private theorem hexField_hexEncode (name : String) (bs : Bytes) : hexField name (Text.hexEncode bs) = .ok bs := by
  rw [hexField,hexDecode,if_neg (by rw [Text.length_hexEncode]; omega),Text.hexPairs_hexEncode]

private theorem replayLine_edit {e : Edit} (h : e.Valid) (s : LevelState) :
    replayLine (Text.unwords e.parts) s = some (.ok (e.apply s)) := by
  rw [replayLine,Text.words_unwords (Edit.isWord_parts h)]
  cases e with
  | add level table =>
    obtain ⟨hlevel,hid,-,-,hsize,hcount⟩ := h
    have hlevel' : level < 2^64 := hlevel.trans (by decide)
    have hparse : parseAdd (Edit.parts (.add level table)) (Text.unwords (Edit.parts (.add level table))) = .ok (level,table) := by
      simp only [parseAdd,Edit.parts,field_decimal hlevel',field_decimal hid,hexField_hexEncode,field_decimal hsize,
        field_decimal hcount]
      rfl
    have hhead : (Edit.parts (.add level table)).head? = some "ADD".toList := rfl
    rw [if_pos hhead,hparse]
    dsimp only
    rw [if_pos hlevel]
    rfl
  | del sstId =>
    have hparse : parseDel (Edit.parts (.del sstId)) (Text.unwords (Edit.parts (.del sstId))) = .ok sstId :=
      field_decimal h
    have hhead : (Edit.parts (.del sstId)).head? = some "DEL".toList := rfl
    have hne : some "DEL".toList ≠ some "ADD".toList := by decide
    rw [hhead,if_neg hne,if_pos rfl,hparse]
    rfl

theorem replay_append (as bs : List (List Char)) (s : LevelState) :
    replay (as ++ bs) s =
      match replay as s with
      | some (.ok s') => replay bs s'
      | r => r := by
  induction as generalizing s with
  | nil => rfl
  | cons a as ih =>
    rw [cons_append,replay,replay]
    split_ifs
    · exact ih s
    · cases replayLine (trim a) s with
      | none => rfl
      | some r =>
        cases r with
        | error e => rfl
        | ok s' => exact ih s'

/-- The text ends with a whole line. -/
def Complete (text : List Char) : Prop := text = [] ∨ ∃ cs, text = cs ++ ['\n']

private theorem openFile_append {text : List Char} (h : Complete text) {s : LevelState}
    (hs : openFile text = some (.ok s)) (more : List Char) : openFile (text ++ more) = replay (Text.lines more) s := by
  rcases h with rfl | ⟨cs,rfl⟩
  · cases hs
    rfl
  · rw [openFile,append_assoc,singleton_append,Text.lines_append,replay_append] at *
    generalize replay (Text.lines cs) .new = r at hs ⊢
    match r with
    | none => cases hs
    | some (.error e) => cases hs
    | some (.ok s') =>
      cases hs
      rfl

/-- Appended edits are applied to what the text before them replays to. -/
theorem openFile_edits {text : List Char} (h : Complete text) {s : LevelState} (hs : openFile text = some (.ok s))
    {edits : List Edit} (hvalid : ∀ e ∈ edits, e.Valid) :
    Complete (text ++ edits.flatMap Edit.line) ∧
      openFile (text ++ edits.flatMap Edit.line) = some (.ok (edits.foldl Edit.apply s)) := by
  induction edits generalizing text s with
  | nil => simpa using ⟨h,hs⟩
  | cons e edits ih =>
    have he := hvalid e mem_cons_self
    have hwords := Edit.isWord_parts he
    have hparts : e.parts ≠ [] := by cases e <;> simp [Edit.parts]
    have hline : openFile (text ++ e.line) = some (.ok (e.apply s)) := by
      rw [openFile_append h hs,e.line_eq,Text.lines_line (Text.newline_notMem_unwords hwords),replay,
        trim_unwords hparts hwords,if_neg,replayLine_edit he]
      · rfl
      · obtain ⟨⟨c,cs,hc,-⟩,-⟩ := Text.unwords_ends hparts hwords
        rw [hc]
        simp
    have hcomplete : Complete (text ++ e.line) := .inr ⟨text ++ Text.unwords e.parts,by rw [e.line_eq,append_assoc]⟩
    have hrest := ih hcomplete hline (fun x hx => hvalid x (mem_cons_of_mem _ hx))
    rwa [append_assoc,← flatMap_cons] at hrest

end Manifest
end InterchangeDb
