import LzCodec.Files.Store

/-!
# Where paths lead

A path is followed by looking at one place after another (`Leads`). A file that is put where no path leads
on from changes no path (`Leads.put`), so the path that a file was made by still leads to it when it was
written (`Target.content_fill`). What stands at this path is the file itself, or else a link, and the link
is what is removed by the path (`Target.removeFile_fill`).
-/

namespace LzCodec

namespace FileStore

variable {s : FileStore} {place q : Place} {node : Node}

/-! ## Places -/

theorem find?_erase_self (s : FileStore) (h : place ≠ []) : (s.erase place).find? place = none := by
  rw [find?, if_neg h, erase, List.lookup_eq_none_iff]
  intro entry hentry
  exact bne_iff_ne.2 (Ne.symm (of_decide_eq_true (List.mem_filter.1 hentry).2))

theorem find?_erase_of_ne (s : FileStore) (h : q ≠ place) : (s.erase place).find? q = s.find? q := by
  have hlookup : (s.nodes.filter fun entry => entry.1 ≠ place).lookup q = s.nodes.lookup q := by
    induction s.nodes with
    | nil => rfl
    | cons entry rest ih =>
      obtain ⟨p, node⟩ := entry
      by_cases hp : p = place
      · rw [List.filter_cons_of_neg (by simpa using hp), ih, List.lookup_cons,
          beq_eq_false_iff_ne.2 fun hq => h (hq.trans hp)]
      · rw [List.filter_cons_of_pos (by simpa using hp), List.lookup_cons, List.lookup_cons, ih]
  rw [find?, find?, erase, hlookup]

theorem find?_put_self (s : FileStore) (node : Node) (h : place ≠ []) :
    (s.put place node).find? place = some node := by
  rw [find?, if_neg h, put, List.lookup_cons, beq_self_eq_true]

theorem find?_put_of_ne (s : FileStore) (node : Node) (h : q ≠ place) :
    (s.put place node).find? q = s.find? q := by
  rw [← find?_erase_of_ne s h, find?, find?, put, List.lookup_cons, beq_eq_false_iff_ne.2 h]

@[simp] theorem erase_put (s : FileStore) (place : Place) (node : Node) :
    (s.put place node).erase place = s.erase place := by
  simp [put, erase]

@[simp] theorem put_put (s : FileStore) (place : Place) (first second : Node) :
    (s.put place first).put place second = s.put place second := by
  rw [put, erase_put, put]
  rfl

/-- A tree: what is not the root stands in a directory. So does whoever follows a path. -/
structure Rooted (s : FileStore) : Prop where
  home : s.find? s.home = some .directory
  parent : ∀ name dir, s.find? (name :: dir) ≠ none → s.find? dir = some .directory

/-- Neither a directory nor a link stands here, so no path leads on from here. -/
def Final (s : FileStore) (place : Place) : Prop :=
  s.find? place ≠ some .directory ∧ ∀ target, s.find? place ≠ some (.link target)

theorem find?_root (s : FileStore) : s.find? [] = some .directory := if_pos rfl

theorem Final.ne_root (h : s.Final place) : place ≠ [] := by
  rintro rfl
  exact h.1 s.find?_root

namespace Rooted

theorem tail (h : s.Rooted) {dir : Place} (hdir : s.find? dir = some .directory) :
    s.find? dir.tail = some .directory := by
  cases dir with
  | nil => exact hdir
  | cons name dir => exact h.parent name dir (by simp [hdir])

/-- What is put into a directory does not stand above anything. -/
theorem put (h : s.Rooted) {name : String} {dir : Place} (hdir : s.find? dir = some .directory)
    (hfinal : s.Final (name :: dir)) (node : Node) : (s.put (name :: dir) node).Rooted := by
  have hkept {p : Place} (hp : s.find? p = some .directory) :
      (s.put (name :: dir) node).find? p = some .directory := by
    have hne : p ≠ name :: dir := fun heq => hfinal.1 (heq ▸ hp)
    rw [find?_put_of_ne s node hne, hp]
  constructor
  · exact hkept h.home
  · intro name' dir' hfind
    by_cases heq : name' :: dir' = name :: dir
    · rw [(List.cons.inj heq).2]
      exact hkept hdir
    · rw [find?_put_of_ne s node heq] at hfind
      exact hkept (h.parent name' dir' hfind)

theorem erase (h : s.Rooted) (hplace : s.find? place ≠ some .directory) : (s.erase place).Rooted := by
  have hkept {p : Place} (hp : s.find? p = some .directory) :
      (s.erase place).find? p = some .directory := by
    have hne : p ≠ place := fun heq => hplace (heq ▸ hp)
    rw [find?_erase_of_ne s hne, hp]
  constructor
  · exact hkept h.home
  · intro name dir hfind
    apply hkept (h.parent name dir _)
    intro hnone
    by_cases heq : name :: dir = place
    · subst heq
      exact hfind (s.find?_erase_self (List.cons_ne_nil _ _))
    · exact hfind ((find?_erase_of_ne s heq).trans hnone)

/-- A store is a tree if what it holds stands in directories. -/
theorem of_nodes (hhome : s.find? s.home = some .directory)
    (h : ∀ entry ∈ s.nodes, s.find? entry.1.tail = some .directory) : s.Rooted := by
  refine ⟨hhome, fun name dir hfind => ?_⟩
  rw [find?, if_neg (List.cons_ne_nil _ _), ne_eq, List.lookup_eq_none_iff, Classical.not_forall] at hfind
  obtain ⟨entry, hentry⟩ := hfind
  obtain ⟨hmem, hplace⟩ := Classical.not_imp.1 hentry
  have heq : name :: dir = entry.1 := by simpa using hplace
  have hparent := h entry hmem
  rwa [← heq] at hparent

end Rooted

/-! ## Paths -/

/-- A name that is looked up in the directory. -/
structure Asks (purpose : Purpose) (name : String) (rest : List String) : Prop where
  other : ¬ (name = "" ∨ name = ".")
  down : name ≠ ".."
  file : ¬ (purpose = .create ∧ rest ≠ [] ∧ rest.all (· = ""))
  short : ¬ maxName < name.utf8ByteSize

/-- To make a file asks most of a path. -/
theorem Asks.of_create {purpose : Purpose} {name : String} {rest : List String}
    (h : Asks .create name rest) (hpurpose : purpose ≠ .create) : Asks purpose name rest :=
  ⟨h.other, h.down, fun hfile => hpurpose hfile.1, h.short⟩

/-- How names lead from a directory to a place. -/
inductive Leads (s : FileStore) (purpose : Purpose) : Nat → Place → List String → Place → Prop
  | here (links : Nat) (dir : Place) : Leads s purpose links dir [] dir
  | stay {links : Nat} {dir : Place} {name : String} {rest : List String} {place : Place}
      (hname : name = "" ∨ name = ".") (h : Leads s purpose links dir rest place) :
      Leads s purpose links dir (name :: rest) place
  | up {links : Nat} {dir : Place} {rest : List String} {place : Place}
      (h : Leads s purpose links dir.tail rest place) : Leads s purpose links dir (".." :: rest) place
  | last {links : Nat} {dir : Place} {name : String} (hname : Asks purpose name [])
      (hfinal : s.Final (name :: dir)) : Leads s purpose links dir [name] (name :: dir)
  | enter {links : Nat} {dir : Place} {name : String} {rest : List String} {place : Place}
      (hname : Asks purpose name rest) (hfind : s.find? (name :: dir) = some .directory)
      (h : Leads s purpose links (name :: dir) rest place) :
      Leads s purpose links dir (name :: rest) place
  | stop {links : Nat} {dir : Place} {name target : String} (hname : Asks purpose name [])
      (hfind : s.find? (name :: dir) = some (.link target)) (hlook : purpose = .look) :
      Leads s purpose links dir [name] (name :: dir)
  | follow {links : Nat} {dir : Place} {name target : String} {rest : List String} {place : Place}
      (hname : Asks purpose name rest) (hfind : s.find? (name :: dir) = some (.link target))
      (hgo : ¬ (rest = [] ∧ purpose = .look))
      (h : Leads s purpose links (if target.startsWith "/" then [] else dir) (names target ++ rest)
        place) :
      Leads s purpose (links + 1) dir (name :: rest) place

theorem Leads.of_walk {purpose : Purpose} {links : Nat} {dir : Place} {path : List String}
    (h : s.walk purpose links dir path = .ok place) : s.Leads purpose links dir path place := by
  fun_induction walk s purpose links dir path with
  | case1 links dir =>
    cases h
    exact .here links _
  | case2 links dir name rest hname ih => exact .stay hname (ih h)
  | case3 links dir rest _ ih => exact .up (ih h)
  | case4 => cases h
  | case5 => cases h
  | case6 links dir name hother hdown hshort hfind hfile =>
    cases h
    exact .last ⟨hother, hdown, hfile, hshort⟩ (by simp [Final, hfind])
  | case7 => cases h
  | case8 links dir name rest hother hdown hfile hshort hfind ih =>
    exact .enter ⟨hother, hdown, hfile, hshort⟩ hfind (ih h)
  | case9 links dir name rest hother hdown hfile hshort target hfind hstop =>
    obtain ⟨rfl, hlook⟩ := hstop
    cases h
    exact .stop ⟨hother, hdown, hfile, hshort⟩ hfind hlook
  | case10 => cases h
  | case11 dir name rest hother hdown hfile hshort target hfind hgo links ih =>
    exact .follow ⟨hother, hdown, hfile, hshort⟩ hfind hgo (ih h)
  | case12 links dir name hother hdown hshort node hdirectory hlink hfind hfile =>
    cases h
    refine .last ⟨hother, hdown, hfile, hshort⟩ ⟨?_, ?_⟩
    · rw [hfind]
      exact fun heq => hdirectory (Option.some.inj heq)
    · intro target
      rw [hfind]
      exact fun heq => hlink target (Option.some.inj heq)
  | case13 => cases h

theorem Leads.walk {purpose : Purpose} {links : Nat} {dir : Place} {path : List String}
    (h : s.Leads purpose links dir path place) : s.walk purpose links dir path = .ok place := by
  induction h with
  | here => rw [FileStore.walk]
  | stay hname _ ih => rw [FileStore.walk, if_pos hname, ih]
  | up _ ih => rw [FileStore.walk, if_neg (by decide), if_pos rfl, ih]
  | last hname hfinal =>
    rw [FileStore.walk, if_neg hname.other, if_neg hname.down, if_neg hname.file, if_neg hname.short]
    split
    · rfl
    · rename_i hfind
      exact absurd hfind hfinal.1
    · rename_i target hfind
      exact absurd hfind (hfinal.2 target)
    · rfl
  | enter hname hfind _ ih =>
    rw [FileStore.walk, if_neg hname.other, if_neg hname.down, if_neg hname.file, if_neg hname.short,
      hfind]
    exact ih
  | stop hname hfind hlook =>
    rw [FileStore.walk, if_neg hname.other, if_neg hname.down, if_neg hname.file, if_neg hname.short,
      hfind]
    exact if_pos ⟨rfl, hlook⟩
  | follow hname hfind hgo _ ih =>
    rw [FileStore.walk, if_neg hname.other, if_neg hname.down, if_neg hname.file, if_neg hname.short,
      hfind]
    dsimp only
    rw [if_neg hgo]
    exact ih

namespace Leads

variable {purpose : Purpose} {links : Nat} {dir : Place} {path : List String}

/-- Paths lead where they led if a file is put where none leads on from. -/
theorem put (h : s.Leads purpose links dir path q) (hfinal : s.Final place) (bytes : Bytes) :
    (s.put place (.file bytes)).Leads purpose links dir path q := by
  -- A path goes on from directories and links only, and none of them stands where the file is put.
  have hkept {p : Place} {node : Node} (hp : s.find? p = some node)
      (hnode : node = .directory ∨ ∃ target, node = .link target) :
      (s.put place (.file bytes)).find? p = some node := by
    refine (find?_put_of_ne s _ ?_).trans hp
    rintro rfl
    rcases hnode with rfl | ⟨target, rfl⟩
    · exact hfinal.1 hp
    · exact hfinal.2 target hp
  induction h with
  | here links dir => exact .here links dir
  | stay hname _ ih => exact .stay hname ih
  | up _ ih => exact .up ih
  | @last links dir name hname hlast =>
    refine .last hname ?_
    by_cases heq : name :: dir = place
    · rw [Final, ← heq, find?_put_self s _ (List.cons_ne_nil _ _)]
      simp
    · rwa [Final, find?_put_of_ne s _ heq]
  | enter hname hfind _ ih => exact .enter hname (hkept hfind (.inl rfl)) ih
  | stop hname hfind hlook => exact .stop hname (hkept hfind (.inr ⟨_, rfl⟩)) hlook
  | follow hname hfind hgo _ ih => exact .follow hname (hkept hfind (.inr ⟨_, rfl⟩)) hgo ih

theorem follow_of_create (h : s.Leads .create links dir path place) :
    s.Leads .follow links dir path place := by
  induction h with
  | here links dir => exact .here links dir
  | stay hname _ ih => exact .stay hname ih
  | up _ ih => exact .up ih
  | last hname hlast => exact .last (hname.of_create nofun) hlast
  | enter hname hfind _ ih => exact .enter (hname.of_create nofun) hfind ih
  | stop _ _ hlook => cases hlook
  | follow hname hfind _ _ ih => exact .follow (hname.of_create nofun) hfind (fun hlook => nomatch hlook.2) ih

/-- A file is made where the path itself stands, unless a link stands there. -/
theorem look_of_create (h : s.Leads .create links dir path place) :
    ∃ own, s.Leads .look links dir path own ∧
      (own = place ∨ ∃ target, s.find? own = some (.link target)) := by
  induction h with
  | here links dir => exact ⟨dir, .here links dir, .inl rfl⟩
  | stay hname _ ih =>
    obtain ⟨own, hown, hcases⟩ := ih
    exact ⟨own, .stay hname hown, hcases⟩
  | up _ ih =>
    obtain ⟨own, hown, hcases⟩ := ih
    exact ⟨own, .up hown, hcases⟩
  | last hname hlast => exact ⟨_, .last (hname.of_create nofun) hlast, .inl rfl⟩
  | enter hname hfind _ ih =>
    obtain ⟨own, hown, hcases⟩ := ih
    exact ⟨own, .enter (hname.of_create nofun) hfind hown, hcases⟩
  | stop _ _ hlook => cases hlook
  | @follow links dir name target rest place hname hfind _ _ ih =>
    -- The path stands here only if this is its own last name, and not one of a link on its way.
    by_cases hrest : rest = []
    · subst hrest
      exact ⟨name :: dir, .stop (hname.of_create nofun) hfind rfl, .inr ⟨target, hfind⟩⟩
    · obtain ⟨own, hown, hcases⟩ := ih
      exact ⟨own, .follow (hname.of_create nofun) hfind (fun h => hrest h.1) hown, hcases⟩

/-- In a tree, a path that is followed ends in a directory or at a place in one that leads no further. -/
theorem reached (h : s.Leads purpose links dir path place) (hpurpose : purpose ≠ .look)
    (hrooted : s.Rooted) (hdir : s.find? dir = some .directory) :
    s.find? place = some .directory ∨
      s.Final place ∧ ∃ name parent, place = name :: parent ∧ s.find? parent = some .directory := by
  induction h with
  | here => exact .inl hdir
  | stay _ _ ih => exact ih hdir
  | up _ ih => exact ih (hrooted.tail hdir)
  | last _ hlast => exact .inr ⟨hlast, _, _, rfl, hdir⟩
  | enter _ hfind _ ih => exact ih hfind
  | stop _ _ hlook => exact absurd hlook hpurpose
  | follow _ _ _ _ ih =>
    apply ih
    split
    · exact s.find?_root
    · exact hdir

end Leads

/-! ## Files -/

/-- The directory in which a path starts. -/
def start (s : FileStore) (path : String) : Place := if path.startsWith "/" then [] else s.home

theorem resolve_eq_ok_iff {purpose : Purpose} {path : String} :
    s.resolve purpose path = .ok place ↔
      pathFault? path = none ∧ s.Leads purpose maxLinks (s.start path) (names path) place := by
  rw [resolve, locate]
  cases pathFault? path with
  | some e => simp
  | none => exact ⟨fun h => ⟨rfl, .of_walk h⟩, fun h => h.2.walk⟩

theorem Rooted.start (h : s.Rooted) (path : String) : s.find? (s.start path) = some .directory := by
  rw [FileStore.start]
  split
  · exact s.find?_root
  · exact h.home

/-- The store when a file that was opened for writing has this content. A device keeps nothing. -/
def fill (s : FileStore) (place : Place) (bytes : Bytes) : FileStore :=
  match s.find? place with
  | some (.device _) => s
  | _ => s.put place (.file bytes)

theorem fill_of_device {d : Device} (h : s.find? place = some (.device d)) (bytes : Bytes) :
    s.fill place bytes = s := by
  rw [fill, h]

theorem fill_of_no_device (h : ∀ d, s.find? place ≠ some (.device d)) (bytes : Bytes) :
    s.fill place bytes = s.put place (.file bytes) := by
  rw [fill]
  split
  · rename_i d hd
    exact absurd hd (h d)
  · rfl

/-- What holds of a place where a file can be made. -/
structure Target (s : FileStore) (path : String) (place : Place) : Prop where
  fault : pathFault? path = none
  leads : s.Leads .create maxLinks (s.start path) (names path) place
  final : s.Final place
  parent : ∃ name dir, place = name :: dir ∧ s.find? dir = some .directory

/-- A file that could be made is opened and empty. -/
theorem createFile_eq_ok {path : String} {opened : FileStore} (hrooted : s.Rooted)
    (h : s.createFile path = .ok (place, opened)) :
    s.Target path place ∧ opened = s.fill place #[] := by
  rw [createFile] at h
  cases hresolve : s.resolve .create path with
  | error e =>
    rw [hresolve] at h
    cases h
  | ok p =>
    rw [hresolve] at h
    obtain ⟨hfault, hleads⟩ := resolve_eq_ok_iff.1 hresolve
    have hreached := hleads.reached nofun hrooted (hrooted.start path)
    simp only [Bind.bind, Except.bind] at h
    split at h
    · cases h
    · rename_i d hd
      cases h
      obtain ⟨hfinal, hparent⟩ := hreached.resolve_left (by rw [hd]; exact nofun)
      exact ⟨⟨hfault, hleads, hfinal, hparent⟩, (fill_of_device hd _).symm⟩
    · rename_i hdirectory hdevice
      cases h
      obtain ⟨hfinal, hparent⟩ := hreached.resolve_left hdirectory
      exact ⟨⟨hfault, hleads, hfinal, hparent⟩, (fill_of_no_device hdevice _).symm⟩

/-- A write replaces what the file holds. It fails on a device. -/
theorem writeFile_fill (h : s.Final place) (before bytes : Bytes) :
    ((s.fill place before).writeFile place bytes).2 = s.fill place bytes ∧
      (((s.fill place before).writeFile place bytes).1 = .ok () ↔
        ∀ d, s.find? place ≠ some (.device d)) := by
  by_cases hdevice : ∃ d, s.find? place = some (.device d)
  · obtain ⟨d, hd⟩ := hdevice
    rw [fill_of_device hd, fill_of_device hd, writeFile, hd]
    simp
  · have hno : ∀ d, s.find? place ≠ some (.device d) := fun d hd => hdevice ⟨d, hd⟩
    rw [fill_of_no_device hno, fill_of_no_device hno, writeFile, find?_put_self s _ h.ne_root]
    exact ⟨put_put s place _ _, fun _ => hno, fun _ => rfl⟩

theorem find?_fill_of_ne (h : q ≠ place) (bytes : Bytes) :
    (s.fill place bytes).find? q = s.find? q := by
  rw [fill]
  split
  · rfl
  · exact find?_put_of_ne s _ h

/-- What stands at the path of a file: the file, or else a link that leads to it. -/
def Removes (s : FileStore) (path : String) (place own : Place) : Prop :=
  s.resolve .look path = .ok own ∧
    (own = place ∨ own ≠ place ∧ ∃ target, s.find? own = some (.link target))

namespace Target

variable {path : String} (h : s.Target path place)
include h

theorem leads_fill {purpose : Purpose} {q : Place} (bytes : Bytes)
    (hq : s.Leads purpose maxLinks (s.start path) (names path) q) :
    (s.fill place bytes).resolve purpose path = .ok q := by
  rw [resolve_eq_ok_iff]
  refine ⟨h.fault, ?_⟩
  rw [fill]
  split
  · exact hq
  · exact hq.put h.final bytes

theorem rooted_fill (hrooted : s.Rooted) (bytes : Bytes) : (s.fill place bytes).Rooted := by
  obtain ⟨name, dir, rfl, hdir⟩ := h.parent
  rw [fill]
  split
  · exact hrooted
  · exact hrooted.put hdir h.final _

/-- The path of a file leads to what was written to it. -/
theorem content_fill (hdevice : ∀ d, s.find? place ≠ some (.device d)) (bytes : Bytes) :
    (s.fill place bytes).content path = .ok bytes := by
  have hfind : (s.fill place bytes).find? place = some (.file bytes) := by
    rw [fill_of_no_device hdevice, find?_put_self s _ h.final.ne_root]
  rw [content, h.leads_fill bytes h.leads.follow_of_create]
  simp only [Bind.bind, Except.bind, hfind]
  rfl

theorem find?_fill_ne (bytes : Bytes) : (s.fill place bytes).find? place ≠ some .directory := by
  rw [fill]
  split
  · exact h.final.1
  · rw [find?_put_self s _ h.final.ne_root]
    exact nofun

/-- What stands at the path of a file is no directory, whatever was written to the file. -/
theorem find?_fill_own_ne {own : Place} (hown : s.Removes path place own) (bytes : Bytes) :
    (s.fill place bytes).find? own ≠ some .directory := by
  rcases hown.2 with rfl | ⟨hne, target, hlink⟩
  · exact h.find?_fill_ne bytes
  · rw [find?_fill_of_ne hne, hlink]
    exact nofun

/-- What is removed by the path of a file is the file, or else the link that stands at the path. -/
theorem removeFile_fill (bytes : Bytes) :
    ∃ own, s.Removes path place own ∧
      (s.fill place bytes).removeFile path = (s.fill place bytes).erase own := by
  obtain ⟨own, hleads, hcases⟩ := h.leads.look_of_create
  have hkind : own = place ∨ own ≠ place ∧ ∃ target, s.find? own = some (.link target) := by
    refine hcases.imp_right fun ⟨target, hlink⟩ => ⟨?_, target, hlink⟩
    rintro rfl
    exact h.final.2 target hlink
  have hown : s.Removes path place own := ⟨resolve_eq_ok_iff.2 ⟨h.fault, hleads⟩, hkind⟩
  refine ⟨own, hown, ?_⟩
  rw [removeFile, h.leads_fill bytes hleads]
  dsimp only
  split
  · rename_i hdirectory
    exact absurd hdirectory (h.find?_fill_own_ne hown bytes)
  · rfl

/-- A tree stays one if what stands at the path of a file is removed. -/
theorem rooted_erase_fill (hrooted : s.Rooted) {own : Place} (hown : s.Removes path place own)
    (bytes : Bytes) : ((s.fill place bytes).erase own).Rooted :=
  (h.rooted_fill hrooted bytes).erase (h.find?_fill_own_ne hown bytes)

end Target

end FileStore

end LzCodec
