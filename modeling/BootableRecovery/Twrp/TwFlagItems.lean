import BootableRecovery.Lib.Tokens
import Mathlib.Data.List.Nodup

namespace BootableRecovery.Twrp
open Lib

/-! `Process_TW_Flags`: the flags that a line of the fstab has for TWRP. -/

namespace TwFlags

inductive TwFlag
  | defaults | andsec | backup | backupname | advbackup | blocksize | canbewiped
  | canencryptbackup | display | encryptable | fileencryption | metadataEncryption | flashimg
  | forceencrypt | fsflags | ignoreblkid | length | mounttodecrypt | quota | removable
  | settingsstorage | storage | storagename | subpartitionof | symlink | userdataencryptbackup
  | usermrf | wipeduringfactoryreset | wipeingui | slotselect | wait | verify | check | altdevice
  | notrim | voldmanaged | formattable | resize | keydirectory | wrappedkey | adoptedMountDelay
  | dmUseOriginalPath | logical
  deriving DecidableEq, Repr

abbrev Entry := Text × TwFlag

/-- Flags without a trailing `=` may be written with or without an argument. -/
def twFlags : List Entry :=
  [("andsec".toList, .andsec), ("backup".toList, .backup), ("advbackup".toList, .advbackup),
    ("backupname=".toList, .backupname), ("blocksize=".toList, .blocksize),
    ("canbewiped".toList, .canbewiped), ("canencryptbackup".toList, .canencryptbackup),
    ("defaults".toList, .defaults), ("display=".toList, .display),
    ("encryptable=".toList, .encryptable), ("fileencryption=".toList, .fileencryption),
    ("metadata_encryption=".toList, .metadataEncryption), ("flashimg".toList, .flashimg),
    ("forceencrypt=".toList, .forceencrypt), ("fsflags=".toList, .fsflags),
    ("ignoreblkid".toList, .ignoreblkid), ("length=".toList, .length),
    ("mounttodecrypt".toList, .mounttodecrypt), ("quota".toList, .quota),
    ("removable".toList, .removable), ("settingsstorage".toList, .settingsstorage),
    ("storage".toList, .storage), ("storagename=".toList, .storagename),
    ("subpartitionof=".toList, .subpartitionof), ("symlink=".toList, .symlink),
    ("userdataencryptbackup".toList, .userdataencryptbackup), ("usermrf".toList, .usermrf),
    ("wipeduringfactoryreset".toList, .wipeduringfactoryreset), ("wipeingui".toList, .wipeingui),
    ("slotselect".toList, .slotselect), ("wait".toList, .wait), ("verify".toList, .verify),
    ("check".toList, .check), ("altdevice".toList, .altdevice), ("notrim".toList, .notrim),
    ("voldmanaged=".toList, .voldmanaged), ("formattable".toList, .formattable),
    ("resize".toList, .resize), ("keydirectory=".toList, .keydirectory),
    ("wrappedkey".toList, .wrappedkey), ("adopted_mount_delay=".toList, .adoptedMountDelay),
    ("dm_use_original_path".toList, .dmUseOriginalPath), ("logical".toList, .logical)]

/-- A call of `Apply_TW_Flag`. -/
structure Call where
  flag : TwFlag
  str : Text
  val : Bool
  deriving DecidableEq, Repr

/-- What is done for an item: a call, or a message. -/
inductive Event
  | apply (call : Call)
  | missingOrExtra (flagName : Text)
  | missing (flagName : Text)
  | unprocessed (ptr : Text)
  | unhandled (ptr : Text) (isError : Bool)
  deriving DecidableEq, Repr

def stripQuotes (str : Text) : Text :=
  let str := if str.head? = some '"' then str.tail else str
  if str.getLast? = some '"' then str.dropLast else str

/-- The separators that are not between quotes become newlines. -/
def markSeparators (sourceSeparator : Char) : Bool → Text → Text
  | _, [] => []
  | skip, c :: flags =>
    let skip := if c = '"' then !skip else skip
    (if !skip && c = sourceSeparator then '\n' else c) :: markSeparators sourceSeparator skip flags

/-- What is done with an item that starts with the name of an entry; none for the next entry. -/
def applyEntry (ptr : Text) (entry : Entry) : Option Event :=
  let flagLen := entry.1.length
  let valued := entry.1.getLast? = some '='
  if ptr.length > flagLen ∧ ¬valued ∧ ptr[flagLen]? ≠ some '=' then none
  else if ptr.length > flagLen ∧ ptr[flagLen]? = some '=' then
    let arg := stripQuotes (ptr.drop (flagLen + 1))
    if arg = [] then some (.missingOrExtra entry.1)
    else some (.apply ⟨entry.2, arg, arg.head?.any ("yY1".toList.contains ·)⟩)
  else if ptr.length = flagLen ∧ valued then some (.missing entry.1)
  else if ptr.length > flagLen ∧ valued then
    let arg := stripQuotes (ptr.drop flagLen)
    if arg = [] then some (.missing entry.1) else some (.apply ⟨entry.2, arg, false⟩)
  else if ptr.length = flagLen then some (.apply ⟨entry.2, ptr, true⟩)
  else some (.unprocessed ptr)

/-- The scan through the table. -/
def processItem (displayError : Bool) (ptr : Text) : List Entry → Event
  | [] => .unhandled ptr displayError
  | entry :: entries =>
    if strncmp ptr entry.1 entry.1.length then
      (applyEntry ptr entry).getD (processItem displayError ptr entries)
    else processItem displayError ptr entries

def sourceSeparator (fstabVer : ℕ) : Char := if fstabVer = 2 then ',' else ';'

def processTWFlags (flags : Text) (displayError : Bool) (fstabVer : ℕ) : List Event :=
  (strtok '\n' (markSeparators (sourceSeparator fstabVer) false (cString flags))).map
    fun ptr => processItem displayError ptr twFlags

def Event.call? : Event → Option Call
  | .apply call => some call
  | _ => none

/-- The calls of `Apply_TW_Flag`, in order. -/
def calls (flags : Text) (displayError : Bool) (fstabVer : ℕ) : List Call :=
  (processTWFlags flags displayError fstabVer).filterMap Event.call?

/-! ### The grammar of the items -/

inductive Item
  | bare (name : Text)
  | value (name arg : Text)
  | quoted (name arg : Text)
  deriving DecidableEq, Repr

namespace Item

def name : Item → Text
  | bare name => name
  | value name _ => name
  | quoted name _ => name

def argument : Item → Option Text
  | bare _ => none
  | value _ arg => some arg
  | quoted _ arg => some arg

def unquoted : Item → Option Text
  | value _ arg => some arg
  | _ => none

/-- What is written behind the name. -/
def written : Item → Text
  | bare _ => []
  | value _ arg => '=' :: arg
  | quoted _ arg => '=' :: '"' :: (arg ++ ['"'])

def text (item : Item) : Text := item.name ++ item.written

/-- The characters that neither a name nor a value has. -/
def Plain (s : Text) : Prop := s ≠ [] ∧ '"' ∉ s ∧ '\n' ∉ s ∧ '\x00' ∉ s

instance (s : Text) : Decidable (Plain s) := inferInstanceAs (Decidable (_ ∧ _ ∧ _ ∧ _))

/-- The items of the grammar, for a separator. -/
structure Valid (separator : Char) (item : Item) : Prop where
  name : Plain item.name ∧ '=' ∉ item.name ∧ separator ∉ item.name
  argument : ∀ arg ∈ item.argument, Plain arg
  unquoted : ∀ arg ∈ item.unquoted, separator ∉ arg

end Item

/-- The name of an entry, without its trailing `=`. -/
def base (entry : Entry) : Text := entry.1.takeWhile (· ≠ '=')

/-- The flag must have an argument. -/
def valued (entry : Entry) : Bool := entry.1.getLast? = some '='

def isTrue (arg : Text) : Bool := arg.head?.any ("yY1".toList.contains ·)

/-- The call that an item asks for by its name. -/
def callOf (entries : List Entry) (item : Item) : Option Call :=
  (entries.find? fun entry => base entry = item.name).bind fun entry =>
    match item.argument with
    | none => if valued entry then none else some ⟨entry.2, item.name, true⟩
    | some arg => some ⟨entry.2, arg, !valued entry && isTrue arg⟩

/-- An argument that must be there is not taken for more of the name. -/
def Item.Distinct (entries : List Entry) (item : Item) : Prop :=
  ∀ arg ∈ item.unquoted, arg.head? = some '=' →
    ∀ entry ∈ entries, base entry = item.name → valued entry = false

def join (fstabVer : ℕ) (items : List Item) : Text :=
  [sourceSeparator fstabVer].intercalate (items.map Item.text)

/-! ### The separators -/

section separators
variable {separator : Char} {skip : Bool} {s rest : Text} {item : Item}

theorem markSeparators_plain (hquote : '"' ∉ s) (hsep : separator ∉ s) :
    markSeparators separator skip (s ++ rest) = s ++ markSeparators separator skip rest := by
  induction s with
  | nil => rfl
  | cons c s ih =>
    simp only [List.mem_cons, not_or] at hquote hsep
    simp [markSeparators, Ne.symm hquote.1, Ne.symm hsep.1, ih hquote.2 hsep.2]

theorem markSeparators_quoted (hquote : '"' ∉ s) :
    markSeparators separator true (s ++ rest) = s ++ markSeparators separator true rest := by
  induction s with
  | nil => rfl
  | cons c s ih =>
    simp only [List.mem_cons, not_or] at hquote
    simp [markSeparators, Ne.symm hquote.1, ih hquote.2]

/-- No separator is found in an item. -/
theorem markSeparators_item (hitem : item.Valid separator) (hequals : separator ≠ '=')
    (hquote : separator ≠ '"') :
    markSeparators separator false (item.text ++ rest) =
      item.text ++ markSeparators separator false rest := by
  obtain ⟨⟨⟨-, hname, -, -⟩, -, hsep⟩, hargument, hunquoted⟩ := hitem
  cases item with
  | bare name => simpa [Item.text, Item.written] using markSeparators_plain hname hsep
  | value name arg =>
    rw [Item.name] at hname hsep
    have harg := (hargument arg rfl).2.1
    have hsep' := hunquoted arg rfl
    apply markSeparators_plain <;>
      simp [Item.text, Item.name, Item.written, hname, harg, hsep, hsep', hequals]
  | quoted name arg =>
    rw [Item.name] at hname hsep
    have harg := (hargument arg rfl).2.1
    have hopen : markSeparators separator false ((name ++ ['=']) ++ '"' :: (arg ++ '"' :: rest)) =
        (name ++ ['=']) ++ markSeparators separator false ('"' :: (arg ++ '"' :: rest)) := by
      apply markSeparators_plain <;> simp [hname, hsep, hequals]
    have hinner := @markSeparators_quoted separator arg ('"' :: rest) harg
    simp_all [Item.text, Item.name, Item.written, markSeparators, Ne.symm hquote]

theorem markSeparators_intercalate {items : List Item}
    (hitems : ∀ item ∈ items, item.Valid separator) (hequals : separator ≠ '=')
    (hquote : separator ≠ '"') :
    markSeparators separator false ([separator].intercalate (items.map Item.text)) =
      ['\n'].intercalate (items.map Item.text) := by
  induction items with
  | nil => rfl
  | cons item items ih =>
    have hfirst := fun rest => @markSeparators_item separator rest item
      (hitems item (by simp)) hequals hquote
    cases items with
    | nil => simpa [markSeparators] using hfirst []
    | cons next items =>
      have hrest := ih fun item hitem => hitems item (List.mem_cons_of_mem _ hitem)
      rw [List.map_cons, List.map_cons, List.intercalate_cons_cons, List.intercalate_cons_cons,
        List.append_assoc, hfirst, List.append_assoc, ← List.map_cons, ← hrest]
      simp [markSeparators, hquote]

end separators

/-! ### The scan -/

section scan
variable {entry : Entry} {entries : List Entry} {name arg rest : Text} {displayError : Bool}

theorem equals_not_mem_base (entry : Entry) : '=' ∉ base entry := by
  intro h
  simpa using List.mem_takeWhile_imp h

/-- The only `=` of an entry is its last character. -/
def WellNamed (entry : Entry) : Prop :=
  entry.1 = base entry ++ if valued entry then ['='] else []

theorem WellNamed.valued (h : WellNamed entry) (hvalued : valued entry = true) :
    entry.1 = base entry ++ ['='] := by
  rw [WellNamed, hvalued] at h
  exact h

theorem WellNamed.dual (h : WellNamed entry) (hdual : TwFlags.valued entry = false) :
    entry.1 = base entry := by
  rw [WellNamed, hdual] at h
  simpa using h

theorem twFlags_names : (∀ entry ∈ twFlags, WellNamed entry) ∧ (twFlags.map base).Nodup := by
  unfold WellNamed
  simp only [twFlags, String.reduceToList]
  decide +kernel

theorem twFlags_wellNamed : ∀ entry ∈ twFlags, WellNamed entry := twFlags_names.1

theorem twFlags_nodup : (twFlags.map base).Nodup := twFlags_names.2

/-- The entry of a name is found. -/
theorem callOf_mem {entry : Entry} {item : Item} (hentry : entry ∈ twFlags)
    (hname : base entry = item.name) : callOf twFlags item = callOf [entry] item := by
  have hfind : twFlags.find? (fun e => base e = item.name) = some entry := by
    cases h : twFlags.find? (fun e => base e = item.name) with
    | none => exact absurd hname (by simpa using List.find?_eq_none.mp h entry hentry)
    | some e =>
      have he : base e = base entry := by simpa [hname] using List.find?_some h
      rw [List.inj_on_of_nodup_map twFlags_nodup (List.mem_of_find?_eq_some h) hentry he]
  rw [callOf, callOf, hfind, List.find?_cons_of_pos (by simpa using hname)]

theorem takeWhile_name (hname : '=' ∉ name) (hrest : ∀ c ∈ rest.head?, c = '=') :
    (name ++ rest).takeWhile (· ≠ '=') = name := by
  rw [List.takeWhile_append_of_pos]
  · cases rest with
    | nil => simp
    | cons c rest => simp [hrest c rfl]
  · intro c hc
    simpa using fun heq : c = '=' => hname (heq ▸ hc)

/-- The end of a longer name is not the end of this one. -/
theorem applyEntry_longer {c : Char} (hdual : valued entry = false) (hc : c ≠ '=') :
    applyEntry (entry.1 ++ c :: rest) entry = none := by
  have hvalued : ¬entry.1.getLast? = some '=' := by simpa [valued] using hdual
  rw [applyEntry]
  apply if_pos
  simpa using ⟨hvalued, hc⟩

/-- An entry with another name is passed over. -/
theorem processItem_skip (hentry : WellNamed entry) (hname : '=' ∉ name)
    (hrest : ∀ c ∈ rest.head?, c = '=') (hne : base entry ≠ name) :
    processItem displayError (name ++ rest) (entry :: entries) =
      processItem displayError (name ++ rest) entries := by
  rw [processItem]
  split_ifs with hcmp
  · obtain ⟨more, hmore⟩ := strncmp_length.mp hcmp
    cases hvalued : valued entry with
    | true =>
      rw [hentry.valued hvalued, List.append_assoc] at hmore
      have hbase := @takeWhile_name (base entry) ('=' :: more) (equals_not_mem_base entry) (by simp)
      have hwhole := takeWhile_name hname hrest
      rw [← hmore] at hwhole
      simp_all
    | false =>
      have hbase := hentry.dual hvalued
      have hequals := equals_not_mem_base entry
      rw [← hbase] at hequals hne
      rw [List.append_eq_append_iff] at hmore
      obtain ⟨last, hlast, hmore⟩ | ⟨last, hlast, hmore⟩ := hmore
      · cases last with
        | nil => simp [hlast] at hne
        | cons c last =>
          have hc : c ≠ '=' := fun heq => hname (by simp [hlast, heq])
          rw [hlast, List.append_assoc, List.cons_append, applyEntry_longer hvalued hc,
            Option.getD_none]
      · cases last with
        | nil => simp [hlast] at hne
        | cons c last =>
          have hc := hrest c (by simp [hmore])
          simp [hlast, hc] at hequals
  · rfl

theorem processItem_unhandled (hentries : ∀ entry ∈ entries, WellNamed entry ∧ base entry ≠ name)
    (hname : '=' ∉ name) (hrest : ∀ c ∈ rest.head?, c = '=') :
    processItem displayError (name ++ rest) entries = .unhandled (name ++ rest) displayError := by
  induction entries with
  | nil => rfl
  | cons entry entries ih =>
    have hentry := hentries entry (by simp)
    rw [processItem_skip hentry.1 hname hrest hentry.2]
    exact ih fun entry hentry => hentries entry (List.mem_cons_of_mem _ hentry)

theorem applyEntry_bare (hdual : valued entry = false) :
    applyEntry entry.1 entry = some (.apply ⟨entry.2, entry.1, true⟩) := by
  have hvalued : ¬entry.1.getLast? = some '=' := by simpa [valued] using hdual
  simp [applyEntry, hvalued]

theorem applyEntry_argument (hentry : WellNamed entry) (harg : stripQuotes arg ≠ [])
    (hfirst : valued entry = true → arg.head? ≠ some '=') :
    applyEntry (base entry ++ '=' :: arg) entry =
      some (.apply ⟨entry.2, stripQuotes arg, !valued entry && isTrue (stripQuotes arg)⟩) := by
  cases hvalued : valued entry with
  | true =>
    have hlast : entry.1.getLast? = some '=' := by simpa [valued] using hvalued
    have hptr : base entry ++ '=' :: arg = entry.1 ++ arg := by simp [hentry.valued hvalued]
    rw [hptr, applyEntry]
    cases arg with
    | nil => simp [stripQuotes] at harg
    | cons c rest =>
      have hc : c ≠ '=' := by simpa using hfirst hvalued
      simp [hlast, hc, harg]
  | false =>
    have hlast : ¬entry.1.getLast? = some '=' := by simpa [valued] using hvalued
    rw [← hentry.dual hvalued, applyEntry]
    simp [hlast, harg, isTrue]

theorem stripQuotes_plain (h : '"' ∉ arg) : stripQuotes arg = arg := by
  have hhead : arg.head? ≠ some '"' := fun hq => h (List.mem_of_head? hq)
  have hlast : arg.getLast? ≠ some '"' := fun hq => h (List.mem_of_getLast? hq)
  simp [stripQuotes, hhead, hlast]

theorem stripQuotes_quoted : stripQuotes ('"' :: (arg ++ ['"'])) = arg := by
  simp [stripQuotes]

theorem processItem_argument (hentry : WellNamed entry) (harg : stripQuotes arg ≠ [])
    (hfirst : valued entry = true → arg.head? ≠ some '=') :
    processItem displayError (base entry ++ '=' :: arg) (entry :: entries) =
      .apply ⟨entry.2, stripQuotes arg, !valued entry && isTrue (stripQuotes arg)⟩ := by
  have hcmp : strncmp (base entry ++ '=' :: arg) entry.1 entry.1.length = true := by
    apply strncmp_length.mpr
    cases hvalued : valued entry with
    | true => exact ⟨arg, by simp [hentry.valued hvalued]⟩
    | false => exact ⟨'=' :: arg, by rw [hentry.dual hvalued]⟩
  rw [processItem, if_pos hcmp, applyEntry_argument hentry harg hfirst, Option.getD_some]

theorem processItem_bare (hentry : WellNamed entry)
    (hother : ∀ e ∈ entries, WellNamed e ∧ base e ≠ base entry) :
    processItem displayError (base entry) (entry :: entries) =
      if valued entry then .unhandled (base entry) displayError
      else .apply ⟨entry.2, base entry, true⟩ := by
  cases hvalued : valued entry with
  | true =>
    have hcmp : ¬strncmp (base entry) entry.1 entry.1.length = true := by
      intro hcmp
      have hlength := (strncmp_length.mp hcmp).length_le
      simp [hentry.valued hvalued] at hlength
    have hnone := @processItem_unhandled entries (base entry) [] displayError hother
      (equals_not_mem_base entry) (by simp)
    rw [List.append_nil] at hnone
    rw [processItem, if_neg hcmp, hnone, if_pos rfl]
  | false =>
    rw [← hentry.dual hvalued, processItem, if_pos (strncmp_length.mpr List.prefix_rfl),
      applyEntry_bare hvalued]
    rfl

/-- The call of an item is told by the entry with its name, wherever it stands in the table. -/
theorem processItem_call {separator : Char} {item : Item}
    (hentries : ∀ entry ∈ entries, WellNamed entry) (hnodup : (entries.map base).Nodup)
    (hitem : item.Valid separator) (hdistinct : item.Distinct entries) :
    (processItem displayError item.text entries).call? = callOf entries item := by
  induction entries with
  | nil => rfl
  | cons entry entries ih =>
    have hentry := hentries entry (by simp)
    have hequals := hitem.name.2.1
    rw [List.map_cons, List.nodup_cons] at hnodup
    by_cases hbase : base entry = item.name
    · have hother : ∀ e ∈ entries, WellNamed e ∧ base e ≠ item.name := by
        intro e he
        refine ⟨hentries e (List.mem_cons_of_mem _ he), fun heq => hnodup.1 ?_⟩
        exact List.mem_map.mpr ⟨e, he, heq.trans hbase.symm⟩
      rw [callOf, List.find?_cons_of_pos (by simpa using hbase), Option.bind_some]
      rw [← hbase] at hother
      cases item with
      | bare name =>
        rw [Item.name] at hbase
        rw [Item.text, Item.name, Item.written, List.append_nil, ← hbase,
          processItem_bare hentry hother]
        cases valued entry <;> rfl
      | value name arg =>
        rw [Item.name] at hbase
        have harg := hitem.argument arg rfl
        have hplain := stripQuotes_plain harg.2.1
        rw [Item.text, Item.name, Item.written, ← hbase,
          processItem_argument hentry (by rw [hplain]; exact harg.1), hplain]
        · rfl
        · intro hvalued hfirst
          have hdual := hdistinct arg rfl hfirst entry (by simp) hbase
          simp [hvalued] at hdual
      | quoted name arg =>
        rw [Item.name] at hbase
        have harg := hitem.argument arg rfl
        rw [Item.text, Item.name, Item.written, ← hbase,
          processItem_argument hentry (by rw [stripQuotes_quoted]; exact harg.1) (by simp),
          stripQuotes_quoted]
        rfl
    · have hskip : processItem displayError item.text (entry :: entries) =
          processItem displayError item.text entries := by
        refine processItem_skip hentry hequals ?_ hbase
        cases item <;> simp [Item.written]
      rw [hskip, callOf, List.find?_cons_of_neg (by simpa using hbase)]
      exact ih (fun e he => hentries e (List.mem_cons_of_mem _ he)) hnodup.2
        fun arg harg hfirst e he => hdistinct arg harg hfirst e (List.mem_cons_of_mem _ he)

end scan

/-! ### The items of a line -/

variable {items : List Item} {fstabVer : ℕ} {displayError : Bool}

theorem sourceSeparator_ne (fstabVer : ℕ) :
    sourceSeparator fstabVer ≠ '=' ∧ sourceSeparator fstabVer ≠ '"' ∧
      '\x00' ≠ sourceSeparator fstabVer := by
  rw [sourceSeparator]
  split_ifs <;> decide

theorem Item.Valid.text {separator : Char} {item : Item} (h : item.Valid separator) :
    item.text ≠ [] ∧ '\n' ∉ item.text ∧ '\x00' ∉ item.text := by
  obtain ⟨⟨⟨hne, -, hline, hnul⟩, -⟩, hargument, -⟩ := h
  refine ⟨by simp [Item.text, hne], ?_⟩
  cases item with
  | bare name => simp_all [Item.text, Item.name, Item.written]
  | value name arg =>
    have harg := (hargument arg rfl).2.2
    simp_all [Item.text, Item.name, Item.written]
  | quoted name arg =>
    have harg := (hargument arg rfl).2.2
    simp_all [Item.text, Item.name, Item.written]

/-- The items are found between the separators. -/
theorem strtok_join (hitems : ∀ item ∈ items, item.Valid (sourceSeparator fstabVer)) :
    strtok '\n' (markSeparators (sourceSeparator fstabVer) false (cString (join fstabVer items))) =
      items.map Item.text := by
  obtain ⟨hequals, hquote, hnul⟩ := sourceSeparator_ne fstabVer
  rw [cString_of_no_nul, join, markSeparators_intercalate hitems hequals hquote,
    strtok_intercalate]
  · intro token htoken
    obtain ⟨item, hitem, rfl⟩ := List.mem_map.mp htoken
    have htext := (hitems item hitem).text
    exact ⟨htext.1, htext.2.1⟩
  · apply not_mem_intercalate hnul
    intro token htoken
    obtain ⟨item, hitem, rfl⟩ := List.mem_map.mp htoken
    exact (hitems item hitem).text.2.2

/-- Each item makes the call for its name, in order; an item of an unknown name and one that lacks
an argument it must have make none. -/
theorem calls_join
    (h : ∀ item ∈ items, item.Valid (sourceSeparator fstabVer) ∧ item.Distinct twFlags) :
    calls (join fstabVer items) displayError fstabVer = items.filterMap (callOf twFlags) := by
  rw [calls, processTWFlags, strtok_join fun item hitem => (h item hitem).1, List.map_map,
    List.filterMap_map]
  apply List.filterMap_congr
  intro item hitem
  exact processItem_call twFlags_wellNamed twFlags_nodup (h item hitem).1 (h item hitem).2

/-- `backup;storagename="a;b";length=1` -/
def storageItems : List Item :=
  [.bare "backup".toList, .quoted "storagename".toList "a;b".toList,
    .value "length".toList "1".toList]

theorem calls_storageItems : calls (join 1 storageItems) false 1 =
    [⟨.backup, "backup".toList, true⟩, ⟨.storagename, "a;b".toList, false⟩,
      ⟨.length, "1".toList, false⟩] := by
  have hname : ∀ item ∈ storageItems, Item.Plain item.name ∧ '=' ∉ item.name ∧
      sourceSeparator 1 ∉ item.name := by decide +kernel
  have hargument : ∀ item ∈ storageItems, ∀ arg ∈ item.argument, Item.Plain arg := by
    decide +kernel
  have hunquoted : ∀ item ∈ storageItems, ∀ arg ∈ item.unquoted,
      sourceSeparator 1 ∉ arg ∧ arg.head? ≠ some '=' := by decide +kernel
  have hcall := fun entry item (hentry : entry ∈ twFlags) (hbase : base entry = Item.name item) =>
    callOf_mem hentry hbase
  have hbackup := hcall ("backup".toList, .backup) (.bare "backup".toList)
    (by simp only [twFlags, List.mem_cons, true_or, or_true]) (by decide +kernel)
  have hstorage := hcall ("storagename=".toList, .storagename)
    (.quoted "storagename".toList "a;b".toList)
    (by simp only [twFlags, List.mem_cons, true_or, or_true]) (by decide +kernel)
  have hlength := hcall ("length=".toList, .length) (.value "length".toList "1".toList)
    (by simp only [twFlags, List.mem_cons, true_or, or_true]) (by decide +kernel)
  rw [calls_join]
  · rw [storageItems, List.filterMap_cons, hbackup, List.filterMap_cons, hstorage,
      List.filterMap_cons, hlength]
    decide +kernel
  · intro item hitem
    refine ⟨⟨hname item hitem, hargument item hitem, ?_⟩, ?_⟩
    · intro arg harg
      exact (hunquoted item hitem arg harg).1
    · intro arg harg hfirst
      exact absurd hfirst (hunquoted item hitem arg harg).2

/-- A flag that must have an argument is not applied for its bare name. -/
theorem not_calls_bare : ¬∀ items : List Item,
    (∀ item ∈ items, item.Valid ';' ∧ ∃ entry ∈ twFlags, base entry = item.name) →
      (calls (join 1 items) false 1).length = items.length := by
  intro h
  have hentry : ("display=".toList, TwFlag.display) ∈ twFlags := by
    simp only [twFlags, List.mem_cons, true_or, or_true]
  have hbase : base ("display=".toList, .display) = "display".toList := by decide +kernel
  have hvalid : Item.Valid (sourceSeparator 1) (.bare "display".toList) :=
    ⟨by decide +kernel, by decide +kernel, by decide +kernel⟩
  have hitems : ∀ item ∈ [Item.bare "display".toList], item.Valid (sourceSeparator 1) := by
    simpa using hvalid
  have hnone : callOf twFlags (.bare "display".toList) = none := by
    rw [@callOf_mem _ (.bare "display".toList) hentry hbase]
    decide +kernel
  have hcall := (@processItem_call twFlags false _ _ twFlags_wellNamed twFlags_nodup hvalid
    (by simp [Item.Distinct, Item.unquoted])).trans hnone
  have hlength := h [.bare "display".toList] ?_
  · rw [calls, processTWFlags, strtok_join hitems, List.map_singleton, List.map_singleton,
      List.filterMap_cons, hcall] at hlength
    exact absurd hlength (by decide)
  · intro item hitem
    rw [List.mem_singleton.mp hitem]
    exact ⟨hvalid, _, hentry, hbase⟩

end TwFlags
end BootableRecovery.Twrp
