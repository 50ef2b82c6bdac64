import LzCodec.Files.Codec
import LzCodec.Files.World
import LzCodec.Proofs.Files.Paths
import LzCodec.Proofs.Streams
import Mathlib

/-!
# What calls on files leave behind

Messages apart, a call on files reads its source, runs the codec, opens its target and writes to it
(`Ends`). A call that fails before the target is open leaves the store as it was. A write that fails is
cleaned up by the path of the target: this removes the file, or only the link if the path is one
(`Leaves`), and then the file that was linked keeps a part of the output (`onFiles_leaves_half_written`).
-/

namespace LzCodec

/-! ## Messages -/

/-- Messages are all that has changed. -/
def World.Tells (w after : World) : Prop := ∃ text, after = { w with messages := w.messages ++ text }

namespace World.Tells

variable {w after later : World}

theorem refl (w : World) : w.Tells w := ⟨"", by rw [String.append_empty]⟩

theorem trans (h : w.Tells after) (hlater : after.Tells later) : w.Tells later := by
  obtain ⟨first, rfl⟩ := h
  obtain ⟨second, rfl⟩ := hlater
  exact ⟨first ++ second, by rw [String.append_assoc]⟩

theorem store_eq (h : w.Tells after) : after.store = w.store := by
  obtain ⟨text, rfl⟩ := h
  rfl

end World.Tells

/-- It does nothing but say something. -/
def Quiet (act : StateM World Unit) : Prop := ∀ w, ∃ after, act w = ((), after) ∧ w.Tells after

namespace Quiet

theorem pure : Quiet (pure ()) := fun w => ⟨w, rfl, .refl w⟩

theorem exists_run {α : Type} {act : StateM World Unit} (h : Quiet act) (next : StateM World α)
    (w : World) : ∃ after, w.Tells after ∧ (do act; next : StateM World α) w = next after := by
  obtain ⟨after, hrun, htells⟩ := h w
  refine ⟨after, htells, ?_⟩
  change next (act w).2 = _
  rw [hrun]

theorem bind {first second : StateM World Unit} (h : Quiet first) (hsecond : Quiet second) :
    Quiet (do first; second) := by
  intro w
  obtain ⟨after, htells, hrun⟩ := h.exists_run second w
  obtain ⟨later, hrest, hmore⟩ := hsecond after
  exact ⟨later, hrun.trans hrest, htells.trans hmore⟩

theorem tell (verbosity level : Nat) (text : String) : Quiet (Files.tell verbosity level text) := by
  rw [Files.tell]
  split
  · exact fun w => ⟨_, rfl, text, rfl⟩
  · exact pure

theorem tellEncoded (verbosity size : Nat) (blocks : List BlockHeader) (number pos : Nat) :
    Quiet (Files.tellEncoded verbosity size blocks number pos) := by
  induction blocks generalizing number pos with
  | nil =>
    rw [Files.tellEncoded]
    split
    · exact tell verbosity 3 _
    · exact pure
  | cons b rest ih =>
    rw [Files.tellEncoded]
    exact (tell verbosity 4 _).bind ((tell verbosity 3 _).bind (ih _ _))

theorem tellDecoded (verbosity : Nat) (blocks : List BlockHeader) :
    Quiet (Files.tellDecoded verbosity blocks) := by
  rw [Files.tellDecoded]
  induction blocks with
  | nil => exact pure
  | cons b rest ih =>
    exact (tell verbosity 4 _).bind ih

end Quiet

/-! ## Files -/

namespace World

variable {w : World} {path : String} {place : Place}

theorem bind_run {α β : Type} (act : StateM World α) (next : α → StateM World β) (w : World) :
    (act >>= next) w = next (act w).1 (act w).2 := rfl

theorem readFile_run (w : World) (path : String) :
    (Host.readFile path : StateM World _) w = readFile path w := rfl

theorem createFile_run (w : World) (path : String) :
    (Host.createFile path : StateM World _) w = createFile path w := rfl

theorem writeFile_run (w : World) (place : Place) (bytes : Bytes) :
    (Host.writeFile place bytes : StateM World _) w = writeFile place bytes w := rfl

theorem removeFile_run (w : World) (path : String) :
    (Host.removeFile path : StateM World _) w = removeFile path w := rfl

/-- What is read from a file. -/
def gives (w : World) (path : String) : Except SystemError Bytes := (readFile path w).1

/-- Where a file is opened for writing. -/
def opens (w : World) (path : String) : Except SystemError Place := (createFile path w).1

/-- Nothing keeps bytes from staying at this place. -/
def Writable (w : World) (place : Place) : Prop :=
  w.faults.write = none ∧ ∀ d, w.store.find? place ≠ some (.device d)

theorem readFile_eq (w : World) (path : String) : readFile path w = (w.gives path, w) := by
  rw [gives, readFile]
  split <;> rfl

theorem Tells.opens_eq {after : World} (h : w.Tells after) (path : String) :
    after.opens path = w.opens path := by
  obtain ⟨text, rfl⟩ := h
  rw [opens, opens, createFile, createFile]
  cases w.faults.create with
  | some e => rfl
  | none => cases w.store.createFile path <;> rfl

theorem createFile_of_error {e : SystemError} (h : w.opens path = .error e) :
    createFile path w = (.error e, w) := by
  rw [opens, createFile] at h
  rw [createFile]
  split at h
  · cases h
    rfl
  · split at h
    · cases h
      rfl
    · cases h

theorem createFile_of_ok (hrooted : w.store.Rooted) (h : w.opens path = .ok place) :
    w.store.Target path place ∧
      createFile path w = (.ok place, { w with store := w.store.fill place #[] }) := by
  rw [opens, createFile] at h
  rw [createFile]
  split at h
  · cases h
  · split at h
    · cases h
    · rename_i hcreate
      cases h
      obtain ⟨htarget, rfl⟩ := FileStore.createFile_eq_ok hrooted hcreate
      exact ⟨htarget, rfl⟩

theorem writeFile_of_writable (hfinal : w.store.Final place) (h : w.Writable place) (bytes : Bytes) :
    writeFile place bytes { w with store := w.store.fill place #[] } =
      (.ok (), { w with store := w.store.fill place bytes }) := by
  obtain ⟨hfault, hdevice⟩ := h
  obtain ⟨hstore, hresult⟩ := FileStore.writeFile_fill hfinal #[] bytes
  simp only [writeFile, hfault, hstore, hresult.2 hdevice]

/-- What a file keeps of bytes that cannot be written. -/
def kept (w : World) (bytes : Bytes) : Bytes :=
  match w.faults.write with
  | some (count, _) => bytes.take count
  | none => bytes

theorem kept_eq_take (w : World) (bytes : Bytes) : ∃ n, w.kept bytes = bytes.take n := by
  rw [kept]
  split
  · exact ⟨_, rfl⟩
  · exact ⟨bytes.size, Array.extract_size.symm⟩

theorem writeFile_of_not_writable (hfinal : w.store.Final place) (h : ¬ w.Writable place)
    (bytes : Bytes) :
    ∃ e, writeFile place bytes { w with store := w.store.fill place #[] } =
      (.error e, { w with store := w.store.fill place (w.kept bytes) }) := by
  cases hfault : w.faults.write with
  | none =>
    obtain ⟨hstore, hresult⟩ := FileStore.writeFile_fill hfinal #[] bytes
    cases hwrite : ((w.store.fill place #[]).writeFile place bytes).1 with
    | ok _ => exact absurd ⟨hfault, hresult.1 hwrite⟩ h
    | error e =>
      refine ⟨e, ?_⟩
      simp only [writeFile, kept, hfault, hstore, hwrite]
  | some fault =>
    obtain ⟨count, e⟩ := fault
    obtain ⟨hstore, -⟩ := FileStore.writeFile_fill hfinal #[] (bytes.take count)
    refine ⟨e, ?_⟩
    simp only [writeFile, kept, hfault, hstore]

end World

/-! ## Targets -/

/-- What becomes of bytes that are written to a file, and of the store. -/
inductive Delivers (w : World) (path : String) (out : Bytes) : Except SystemError Unit → FileStore → Prop
  | uncreated {e : SystemError} (h : w.opens path = .error e) :
      Delivers w path out (.error e) w.store
  | unwritten {place own : Place} {e : SystemError} (h : w.opens path = .ok place)
      (hwrite : ¬ w.Writable place) (hown : w.store.Removes path place own) :
      Delivers w path out (.error e) ((w.store.fill place (w.kept out)).erase own)
  | written {place : Place} (h : w.opens path = .ok place) (hwrite : w.Writable place) :
      Delivers w path out (.ok ()) (w.store.fill place out)

theorem Delivers.writeTarget {w : World} {path : String} (verbosity : Nat) (out : Bytes)
    (hrooted : w.store.Rooted) (hpath : path ≠ Files.outputName) :
    ∃ result after, (Files.writeTarget verbosity path out : StateM World _) w = (result, after) ∧
      Delivers w path out result after.store := by
  rw [Files.writeTarget, if_neg hpath, World.bind_run, World.createFile_run]
  cases hopen : w.opens path with
  | error e =>
    rw [World.createFile_of_error hopen]
    exact ⟨_, _, rfl, .uncreated hopen⟩
  | ok place =>
    obtain ⟨htarget, hcreate⟩ := World.createFile_of_ok hrooted hopen
    rw [hcreate]
    dsimp only
    rw [World.bind_run, World.writeFile_run]
    by_cases hwrite : w.Writable place
    · rw [World.writeFile_of_writable htarget.final hwrite]
      exact ⟨_, _, rfl, .written hopen hwrite⟩
    · obtain ⟨e, hpart⟩ := World.writeFile_of_not_writable htarget.final hwrite out
      obtain ⟨own, hown, hremove⟩ := htarget.removeFile_fill (w.kept out)
      rw [hpart]
      dsimp only
      rw [World.bind_run, World.removeFile_run]
      obtain ⟨after, htells, hrun⟩ := (Quiet.tell verbosity 3 (path ++ ": " ++ e.message ++ "\n")).exists_run
        (pure (Except.error (α := Unit) e))
        { w with store := (w.store.fill place (w.kept out)).removeFile path }
      refine ⟨.error e, after, hrun, ?_⟩
      rw [htells.store_eq, hremove]
      exact .unwritten hopen hwrite hown

theorem Delivers.of_tells {w after : World} {path : String} {out : Bytes}
    {result : Except SystemError Unit} {store : FileStore} (htells : w.Tells after)
    (h : Delivers after path out result store) : Delivers w path out result store := by
  have hopens := htells.opens_eq path
  obtain ⟨text, rfl⟩ := htells
  cases h with
  | uncreated h => exact .uncreated (hopens.symm.trans h)
  | unwritten h hwrite hown => exact .unwritten (hopens.symm.trans h) hwrite hown
  | written h hwrite => exact .written (hopens.symm.trans h) hwrite

theorem readSource_run {path : String} (verbosity : Nat) (w : World) (hpath : path ≠ Files.inputName) :
    ∃ after, w.Tells after ∧
      (Files.readSource verbosity path : StateM World _) w = (w.gives path, after) := by
  rw [Files.readSource, if_neg hpath, World.bind_run, World.readFile_run, World.readFile_eq]
  dsimp only
  cases w.gives path with
  | ok bytes => exact ⟨w, .refl w, rfl⟩
  | error e =>
    obtain ⟨after, htells, hrun⟩ := (Quiet.tell verbosity 3 (path ++ ": " ++ e.message ++ "\n")).exists_run
      (pure (Except.error (α := Bytes) e)) w
    exact ⟨after, htells, hrun⟩

/-! ## Calls -/

namespace Codec

variable {codec : Codec} {verbosity : Nat} {source target : String} {w : World}

def onFiles (verbosity : Nat) (source target : String) : Codec → StateM World (Except Failure Sizes)
  | encode effort => Files.encode verbosity source target effort
  | decode => Files.decode verbosity source target

/-- A call gets as far as to write to a file. -/
structure Opens (codec : Codec) (source target : String) (w : World) (src out : Bytes) (place : Place) :
    Prop where
  read : w.gives source = .ok src
  output : codec.output src = .ok out
  opened : w.opens target = .ok place

/-- How a call on files ends, and the store that it leaves. -/
inductive Ends (codec : Codec) (source target : String) (w : World) :
    Except Failure Sizes → FileStore → Prop
  | unread {e : SystemError} (hread : w.gives source = .error e) :
      Ends codec source target w (.error (.system e)) w.store
  | corrupt {src : Bytes} {e : Corruption} (hread : w.gives source = .ok src)
      (hout : codec.output src = .error e) : Ends codec source target w (.error (.corrupt e)) w.store
  | uncreated {src out : Bytes} {e : SystemError} (hread : w.gives source = .ok src)
      (hout : codec.output src = .ok out) (hopen : w.opens target = .error e) :
      Ends codec source target w (.error (.system e)) w.store
  | unwritten {src out : Bytes} {place own : Place} {e : SystemError}
      (h : codec.Opens source target w src out place) (hwrite : ¬ w.Writable place)
      (hown : w.store.Removes target place own) :
      Ends codec source target w (.error (.system e)) ((w.store.fill place (w.kept out)).erase own)
  | written {src out : Bytes} {place : Place} (h : codec.Opens source target w src out place)
      (hwrite : w.Writable place) :
      Ends codec source target w (.ok ⟨src.size, out.size⟩) (w.store.fill place out)

theorem ends_deliver {src out : Bytes} (hrooted : w.store.Rooted) (htarget : target ≠ Files.outputName)
    {after : World} (htells : w.Tells after) (hread : w.gives source = .ok src)
    (hout : codec.output src = .ok out) :
    ∃ result last, (Files.deliver verbosity src.size target out : StateM World _) after = (result, last) ∧
      codec.Ends source target w result last.store := by
  obtain ⟨result, last, hrun, h⟩ := Delivers.writeTarget verbosity out
    (htells.store_eq ▸ hrooted : after.store.Rooted) htarget
  rw [Files.deliver, World.bind_run, hrun]
  generalize hstore : last.store = store at h
  cases h.of_tells htells with
  | uncreated hopen => exact ⟨_, _, rfl, hstore ▸ .uncreated hread hout hopen⟩
  | unwritten hopen hwrite hown =>
    exact ⟨_, _, rfl, hstore ▸ .unwritten ⟨hread, hout, hopen⟩ hwrite hown⟩
  | written hopen hwrite => exact ⟨_, _, rfl, hstore ▸ .written ⟨hread, hout, hopen⟩ hwrite⟩

theorem ends_onFiles (codec : Codec) (verbosity : Nat) (hrooted : w.store.Rooted)
    (hsource : source ≠ Files.inputName) (htarget : target ≠ Files.outputName) :
    ∃ result after, codec.onFiles verbosity source target w = (result, after) ∧
      codec.Ends source target w result after.store := by
  obtain ⟨after, htells, hrun⟩ := readSource_run verbosity w hsource
  cases codec with
  | encode effort =>
    rw [onFiles, Files.encode, World.bind_run, hrun]
    cases hread : w.gives source with
    | error e => exact ⟨_, after, rfl, htells.store_eq ▸ .unread hread⟩
    | ok src =>
      obtain ⟨told, hmore, htell⟩ := (Quiet.tellEncoded verbosity src.size
        (Frame.encode src effort).blocks.toList 0 0).exists_run
        (Files.deliver verbosity src.size target (Frame.encode src effort).bytes) after
      obtain ⟨result, last, hlast, hends⟩ :=
        ends_deliver hrooted htarget (htells.trans hmore) hread
          (show (encode effort).output src = .ok (compress src effort) from rfl)
      exact ⟨result, last, htell.trans hlast, hends⟩
  | decode =>
    rw [onFiles, Files.decode, World.bind_run, hrun]
    cases hread : w.gives source with
    | error e => exact ⟨_, after, rfl, htells.store_eq ▸ .unread hread⟩
    | ok src =>
      -- All blocks are told before it is seen whether the frame is sound.
      have hquiet := Quiet.tellDecoded verbosity (Frame.decode src).blocks.toList
      dsimp only
      cases hout : (Frame.decode src).result with
      | error e =>
        obtain ⟨told, hmore, htell⟩ := hquiet.exists_run
          (pure (Except.error (α := Sizes) (Failure.corrupt e))) after
        exact ⟨_, told, htell, (htells.trans hmore).store_eq ▸ .corrupt hread hout⟩
      | ok content =>
        obtain ⟨told, hmore, htell⟩ := hquiet.exists_run
          (Files.deliver verbosity src.size target content) after
        obtain ⟨result, last, hlast, hends⟩ :=
          ends_deliver hrooted htarget (htells.trans hmore) hread
            (show decode.output src = .ok content from hout)
        exact ⟨result, last, htell.trans hlast, hends⟩

end Codec

/-- What a write that fails leaves. Whatever stands at the path is gone, but if this is a link, the file
that it leads to holds the part of the bytes that was written. -/
structure FileStore.Interrupted (before : FileStore) (path : String) (part : Bytes) (place own : Place)
    (after : FileStore) : Prop where
  removes : before.Removes path place own
  gone : after.find? own = none
  other : ∀ q, q ≠ own → q ≠ place → after.find? q = before.find? q
  part : own ≠ place → (∀ d, before.find? place ≠ some (.device d)) →
    after.find? place = some (.file part)

theorem FileStore.Target.interrupted {s : FileStore} {path : String} {place own : Place}
    (h : s.Target path place) (hown : s.Removes path place own) (part : Bytes) :
    s.Interrupted path part place own ((s.fill place part).erase own) where
  removes := hown
  gone := by
    refine find?_erase_self _ ?_
    rintro rfl
    exact h.find?_fill_own_ne hown #[] (find?_root _)
  other q hq hplace := by rw [find?_erase_of_ne _ hq, find?_fill_of_ne hplace]
  part hne hdevice := by
    rw [find?_erase_of_ne _ hne.symm, fill_of_no_device hdevice, find?_put_self s _ h.final.ne_root]

namespace Codec

variable {codec : Codec} {verbosity : Nat} {source target : String} {w : World} {src out : Bytes}
  {place : Place} {result : Except Failure Sizes} {store : FileStore}

/-- What a call on files leaves. Only a link at the path of the target lets a part of the output outlive a
write that fails. -/
structure Leaves (codec : Codec) (source target : String) (w : World)
    (result : Except Failure Sizes) (store : FileStore) : Prop where
  ends : codec.Ends source target w result store
  rooted : store.Rooted
  ok_iff : (∃ sizes, result = .ok sizes) ↔
    ∃ src out place, codec.Opens source target w src out place ∧ w.Writable place
  unopened : (∀ src out place, ¬ codec.Opens source target w src out place) → store = w.store
  unwritten : ∀ src out place, codec.Opens source target w src out place → ¬ w.Writable place →
    (∃ e, result = .error (.system e)) ∧ (∃ n, w.kept out = out.take n) ∧
      ∃ own, w.store.Interrupted target (w.kept out) place own store
  written : ∀ src out place, codec.Opens source target w src out place → w.Writable place →
    result = .ok ⟨src.size, out.size⟩ ∧ store.content target = .ok out ∧
      ∀ q, q ≠ place → store.find? q = w.store.find? q

theorem Opens.unique {src' out' : Bytes} {place' : Place} (h : codec.Opens source target w src out place)
    (h' : codec.Opens source target w src' out' place') : src' = src ∧ out' = out ∧ place' = place := by
  cases h.read.symm.trans h'.read
  cases h.output.symm.trans h'.output
  cases h.opened.symm.trans h'.opened
  exact ⟨rfl, rfl, rfl⟩

theorem leaves_of_unopened {failure : Failure} (hrooted : w.store.Rooted)
    (hends : codec.Ends source target w (.error failure) w.store)
    (hclosed : ∀ src out place, ¬ codec.Opens source target w src out place) :
    codec.Leaves source target w (.error failure) w.store where
  ends := hends
  rooted := hrooted
  ok_iff := ⟨nofun, fun ⟨_, _, _, h, _⟩ => absurd h (hclosed _ _ _)⟩
  unopened _ := rfl
  unwritten _ _ _ h := absurd h (hclosed _ _ _)
  written _ _ _ h := absurd h (hclosed _ _ _)

theorem Ends.leaves (hrooted : w.store.Rooted) (hends : codec.Ends source target w result store) :
    codec.Leaves source target w result store := by
  cases hends with
  | unread hread =>
    exact leaves_of_unopened hrooted (.unread hread) fun _ _ _ h => nomatch hread.symm.trans h.read
  | corrupt hread hout =>
    refine leaves_of_unopened hrooted (.corrupt hread hout) fun _ _ _ h => ?_
    cases hread.symm.trans h.read
    cases hout.symm.trans h.output
  | uncreated hread hout hopen =>
    exact leaves_of_unopened hrooted (.uncreated hread hout hopen) fun _ _ _ h =>
      nomatch hopen.symm.trans h.opened
  | @unwritten src out place own e hopens hwrite hown =>
    obtain ⟨htarget, -⟩ := World.createFile_of_ok hrooted hopens.opened
    refine ⟨.unwritten hopens hwrite hown, htarget.rooted_erase_fill hrooted hown _, ⟨nofun, ?_⟩,
      ?_, ?_, ?_⟩
    · rintro ⟨_, _, _, h, hwritable⟩
      obtain ⟨rfl, rfl, rfl⟩ := hopens.unique h
      exact absurd hwritable hwrite
    · exact fun hclosed => absurd hopens (hclosed _ _ _)
    · intro _ _ _ h _
      obtain ⟨rfl, rfl, rfl⟩ := hopens.unique h
      exact ⟨⟨e, rfl⟩, w.kept_eq_take _, own, htarget.interrupted hown _⟩
    · intro _ _ _ h hwritable
      obtain ⟨rfl, rfl, rfl⟩ := hopens.unique h
      exact absurd hwritable hwrite
  | @written src out place hopens hwrite =>
    obtain ⟨htarget, -⟩ := World.createFile_of_ok hrooted hopens.opened
    refine ⟨.written hopens hwrite, htarget.rooted_fill hrooted _, ?_, ?_, ?_, ?_⟩
    · exact ⟨fun _ => ⟨src, out, place, hopens, hwrite⟩, fun _ => ⟨_, rfl⟩⟩
    · exact fun hclosed => absurd hopens (hclosed _ _ _)
    · intro _ _ _ h hnot
      obtain ⟨rfl, rfl, rfl⟩ := hopens.unique h
      exact absurd hwrite hnot
    · intro _ _ _ h _
      obtain ⟨rfl, rfl, rfl⟩ := hopens.unique h
      exact ⟨rfl, htarget.content_fill hwrite.2 _, fun q hq => FileStore.find?_fill_of_ne hq _⟩

/-- **A call on files that fails before it opens its target leaves all as it was. If the write fails,
what stands at the path is removed, and a part of the output is left behind where this is a link.** -/
theorem onFiles_leaves (codec : Codec) (verbosity : Nat) (hrooted : w.store.Rooted)
    (hsource : source ≠ Files.inputName) (htarget : target ≠ Files.outputName) :
    codec.Leaves source target w (codec.onFiles verbosity source target w).1
      (codec.onFiles verbosity source target w).2.store := by
  obtain ⟨result, after, hrun, hends⟩ := ends_onFiles codec verbosity hrooted hsource htarget
  rw [hrun]
  exact hends.leaves hrooted

/-- Two bytes of three are written, and the file is gone. -/
theorem onFiles_leaves_nothing :
    let frame : Bytes :=
      #[79, 82, 90, 26, 1, 131, 0, 3, 131, 128, 0, 4, 110, 173, 0, 0, 0, 95, 85, 235, 49]
    let w : World :=
      { store := { nodes := [(["in"], .file frame), (["t"], .file #[7])] }
        faults := { write := some (2, .storageFull) } }
    w.store.Rooted ∧ "in" ≠ Files.inputName ∧ "t" ≠ Files.outputName ∧
      (decode.onFiles 0 "in" "t" w).2.store.find? ["t"] = none ∧
      (decode.onFiles 0 "in" "t" w).2.store.find? ["in"] = some (.file frame) := by
  intro frame w
  have hrooted : w.store.Rooted := .of_nodes rfl (by decide)
  have hsource : "in" ≠ Files.inputName := by decide
  have htarget : "t" ≠ Files.outputName := by decide
  have hopens : decode.Opens "in" "t" w frame #[97, 97, 97] ["t"] :=
    ⟨by cbv, by decide +kernel, by cbv⟩
  have hfault : ¬ w.Writable ["t"] := by
    rintro ⟨hnone, -⟩
    cases hnone
  obtain ⟨-, -, own, hleft⟩ :=
    (onFiles_leaves decode 0 hrooted hsource htarget).unwritten _ _ _ hopens hfault
  have hown : own = ["t"] := by
    have hlook : w.store.resolve .look "t" = .ok ["t"] := by cbv
    exact Except.ok.inj (hleft.removes.1.symm.trans hlook)
  subst hown
  exact ⟨hrooted, hsource, htarget, hleft.gone, hleft.other _ (by decide) (by decide)⟩

/-- Where a link leads to the file, the link is removed instead, and a part of the output stays. -/
theorem onFiles_leaves_half_written :
    let frame : Bytes :=
      #[79, 82, 90, 26, 1, 131, 0, 3, 131, 128, 0, 4, 110, 173, 0, 0, 0, 95, 85, 235, 49]
    let w : World :=
      { store := { nodes := [(["in"], .file frame), (["t"], .link "b"), (["b"], .file #[7])] }
        faults := { write := some (2, .storageFull) } }
    (∃ e, (decode.onFiles 0 "in" "t" w).1 = .error (.system e)) ∧
      decompress frame = .ok #[97, 97, 97] ∧
      (decode.onFiles 0 "in" "t" w).2.store.find? ["b"] = some (.file #[97, 97]) ∧
      (decode.onFiles 0 "in" "t" w).2.store.find? ["t"] = none := by
  intro frame w
  have hrooted : w.store.Rooted := .of_nodes rfl (by decide)
  have hopens : decode.Opens "in" "t" w frame #[97, 97, 97] ["b"] :=
    ⟨by cbv, by decide +kernel, by cbv⟩
  have hfault : ¬ w.Writable ["b"] := by
    rintro ⟨hnone, -⟩
    cases hnone
  obtain ⟨result, after, hrun, hends⟩ := ends_onFiles decode 0 hrooted
    (show "in" ≠ Files.inputName by decide) (show "t" ≠ Files.outputName by decide)
  obtain ⟨hresult, -, own, hleft⟩ := (hends.leaves hrooted).unwritten _ _ _ hopens hfault
  have hown : own = ["t"] := by
    have hlook : w.store.resolve .look "t" = .ok ["t"] := by cbv
    exact Except.ok.inj (hleft.removes.1.symm.trans hlook)
  subst hown
  rw [hrun]
  exact ⟨hresult, hopens.output, hleft.part (by decide) (by rintro d ⟨⟩), hleft.gone⟩

end Codec

end LzCodec
