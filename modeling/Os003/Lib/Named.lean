import Mathlib.Data.List.Induction
import Os003.Lib.Hierarchy

set_option autoImplicit false

/-! # Hierarchies by name

What the calls of a file system mean when nodes are named by their paths: `Answer` says for each call
what is replied and what becomes of the hierarchy. Identities do not show in a call or in a reply, only
names do, so the relation says what a caller can rely on.
-/

namespace Hierarchy

variable {ι ν β : Type}

/-- The node `q` has the name in the directory `o`. -/
structure Called (T : Hierarchy ι ν β) (o : Option ι) (name : ν) (q : ι) (n : Node ι ν β) : Prop where
  node : T q = some n
  parent : n.parent = o
  name : n.name = name

/-- The names lead from the directory `o` to the directory `p`. -/
inductive Leads (T : Hierarchy ι ν β) : Option ι → List ν → Option ι → Prop
  | here (o : Option ι) : Leads T o [] o
  | into {o p : Option ι} {name : ν} {names : List ν} {q : ι} {n : Node ι ν β}
      (hq : T.Called o name q n) (hdir : n.isDir = true) (h : Leads T (some q) names p) :
      Leads T o (name :: names) p

/-- No two nodes of a directory have one name. -/
def Unambiguous (T : Hierarchy ι ν β) : Prop :=
  ∀ q q' n n', T q = some n → T q' = some n' → n.parent = n'.parent → n.name = n'.name → q = q'

/-- What a call is asked to do with the node it names. -/
inductive Call (ν β : Type)
  | create (isDir : Bool)
  | remove (isDir : Bool)
  | rename (new : ν)
  | append (bs : List β)
  | overwrite (bs : List β)
  | read

/-- Whether the node should be a directory. -/
def Call.kind : Call ν β → Option Bool
  | create _ | rename _ => none
  | remove isDir => some isDir
  | append _ | overwrite _ | read => some false

/-- What is replied. -/
inductive Reply (β : Type)
  | done
  | bytes (bs : List β)
  | noDirectory
  | missing
  | taken
  | wrongKind
  | occupied
  | full
  | refused

/-- A new node for a node. -/
def Node.renamed (n : Node ι ν β) (new : ν) : Node ι ν β := { n with name := new }

def Node.holding (n : Node ι ν β) (bs : List β) : Node ι ν β := { n with contents := bs }

variable [DecidableEq ι]

/-- A call on the node with the given name in the directory to which the names lead, the reply, and the
hierarchy afterwards. Only a creation can fail for want of space. -/
inductive Answer (T : Hierarchy ι ν β) (names : List ν) (name : ν) :
    Call ν β → Reply β → Hierarchy ι ν β → Prop
  | noDirectory {call : Call ν β} (h : ∀ o, ¬ T.Leads none names o) :
      Answer T names name call .noDirectory T
  | missing {call : Call ν β} {o : Option ι} (hcall : ∀ isDir, call ≠ .create isDir)
      (ho : T.Leads none names o) (hnone : T.Fresh o name) : Answer T names name call .missing T
  | taken {isDir : Bool} {o : Option ι} {q : ι} {n : Node ι ν β} (ho : T.Leads none names o)
      (hq : T.Called o name q n) : Answer T names name (.create isDir) .taken T
  | full {isDir : Bool} {o : Option ι} (ho : T.Leads none names o) (hnew : T.Fresh o name) :
      Answer T names name (.create isDir) .full T
  | created {isDir : Bool} {o : Option ι} {q : ι} (ho : T.Leads none names o) (hnew : T.Fresh o name)
      (hq : T q = none) : Answer T names name (.create isDir) .done
        (Function.update T q (some ⟨o, name, isDir, []⟩))
  | wrongKind {call : Call ν β} {isDir : Bool} {o : Option ι} {q : ι} {n : Node ι ν β}
      (hcall : call.kind = some isDir) (ho : T.Leads none names o) (hq : T.Called o name q n)
      (hkind : n.isDir ≠ isDir) : Answer T names name call .wrongKind T
  | occupied {o : Option ι} {q p : ι} {n m : Node ι ν β} (ho : T.Leads none names o)
      (hq : T.Called o name q n) (hdir : n.isDir = true) (hp : T p = some m) (hm : m.parent = some q) :
      Answer T names name (.remove true) .occupied T
  | removed {o : Option ι} {q : ι} {n : Node ι ν β} (ho : T.Leads none names o)
      (hq : T.Called o name q n) (hempty : ∀ p m, T p = some m → m.parent ≠ some q) :
      Answer T names name (.remove n.isDir) .done (Function.update T q none)
  | renameTaken {new : ν} {o : Option ι} {q : ι} {n : Node ι ν β} (ho : T.Leads none names o)
      (hq : T.Called o new q n) : Answer T names name (.rename new) .taken T
  | renamed {new : ν} {o : Option ι} {q : ι} {n : Node ι ν β} (ho : T.Leads none names o)
      (hq : T.Called o name q n) (hnew : T.Fresh o new) :
      Answer T names name (.rename new) .done (Function.update T q (some (n.renamed new)))
  | appended {bs : List β} {o : Option ι} {q : ι} {n : Node ι ν β} (ho : T.Leads none names o)
      (hq : T.Called o name q n) (hfile : n.isDir = false) : Answer T names name (.append bs) .done
        (Function.update T q (some (n.holding (n.contents ++ bs))))
  | overwritten {bs : List β} {o : Option ι} {q : ι} {n : Node ι ν β} (ho : T.Leads none names o)
      (hq : T.Called o name q n) (hfile : n.isDir = false) : Answer T names name (.overwrite bs) .done
        (Function.update T q (some (n.holding (bs ++ n.contents.drop bs.length))))
  | read {o : Option ι} {q : ι} {n : Node ι ν β} (ho : T.Leads none names o)
      (hq : T.Called o name q n) (hfile : n.isDir = false) :
      Answer T names name .read (.bytes n.contents) T

variable {T T' : Hierarchy ι ν β} {o p : Option ι} {names : List ν} {name : ν}

omit [DecidableEq ι] in
theorem Called.unique (h : T.Unambiguous) {q q' : ι} {n n' : Node ι ν β} (hq : T.Called o name q n)
    (hq' : T.Called o name q' n') : q = q' ∧ n = n' := by
  have hqq : q = q' := h q q' n n' hq.node hq'.node (hq.parent.trans hq'.parent.symm)
    (hq.name.trans hq'.name.symm)
  subst hqq
  exact ⟨rfl, Option.some.inj (hq.node.symm.trans hq'.node)⟩

omit [DecidableEq ι] in
/-- Names lead to one directory at most. -/
theorem Leads.unique (h : T.Unambiguous) {p' : Option ι} (hp : T.Leads o names p)
    (hp' : T.Leads o names p') : p = p' := by
  induction hp with
  | here o =>
      cases hp'
      rfl
  | into hq _ _ ih =>
      cases hp' with
      | into hq' _ hrest =>
          obtain ⟨rfl, -⟩ := hq.unique h hq'
          exact ih hrest

omit [DecidableEq ι] in
theorem Leads.trans {p' : Option ι} {names' : List ν} (h : T.Leads o names p)
    (h' : T.Leads p names' p') : T.Leads o (names ++ names') p' := by
  induction h with
  | here o => exact h'
  | into hq hdir _ ih => exact .into hq hdir (ih h')

omit [DecidableEq ι] in
/-- The last of the names is that of a directory. -/
theorem leads_concat : T.Leads o (names ++ [name]) p ↔
    ∃ o' q n, T.Leads o names o' ∧ T.Called o' name q n ∧ n.isDir = true ∧ p = some q := by
  constructor
  · intro h
    induction names generalizing o with
    | nil =>
        cases h with
        | into hq hdir hrest =>
            cases hrest
            exact ⟨_, _, _, .here o, hq, hdir, rfl⟩
    | cons x names ih =>
        cases h with
        | into hq hdir hrest =>
            obtain ⟨o', q', n', hleads, hcalled⟩ := ih hrest
            exact ⟨o', q', n', .into hq hdir hleads, hcalled⟩
  · rintro ⟨o', q, n, h, hq, hdir, rfl⟩
    exact h.trans (.into hq hdir (.here _))

/-- Other contents of a node that keeps its name and its place. -/
theorem Called.holding {q q' : ι} {n n' : Node ι ν β} (hq : T q = some n) (bs : List β)
    (h : T.Called o name q' n') : ∃ m, Called (Function.update T q (some (n.holding bs))) o name q' m ∧
      m.isDir = n'.isDir := by
  by_cases hqq : q' = q
  · subst hqq
    obtain rfl := Option.some.inj (hq.symm.trans h.node)
    exact ⟨n.holding bs, ⟨Function.update_self _ _ _, h.parent, h.name⟩, rfl⟩
  · exact ⟨n', ⟨(Function.update_of_ne hqq _ _).trans h.node, h.parent, h.name⟩, rfl⟩

theorem Leads.holding {q : ι} {n : Node ι ν β} (hq : T q = some n) (bs : List β)
    (h : T.Leads o names p) : Leads (Function.update T q (some (n.holding bs))) o names p := by
  induction h with
  | here o => exact .here o
  | into hcalled hdir _ ih =>
      obtain ⟨m, hm, hkind⟩ := hcalled.holding hq bs
      exact .into hm (hkind.trans hdir) ih

/-! ## One open file -/

/-- What may be done with the open file. -/
def Call.Permitted (reads writes : Bool) : Call ν β → Prop
  | read => reads = true
  | append _ | overwrite _ => writes = true
  | _ => False

/-- The open file is remembered by its names. -/
structure Opened (ν : Type) where
  names : List ν
  name : ν
  reads : Bool
  writes : Bool

structure Session (ι ν β : Type) where
  tree : Hierarchy ι ν β
  file : Option (Opened ν)

inductive Request (ν β : Type)
  | call (names : List ν) (name : ν) (c : Call ν β)
  | open (names : List ν) (name : ν) (reads writes : Bool)
  | onFile (c : Call ν β)
  | close

/-- A request, the reply and what comes of it. Calls by name are made while no file is open. -/
inductive Session.Serves : Session ι ν β → Request ν β → Reply β → Session ι ν β → Prop
  | call {T T' : Hierarchy ι ν β} {names : List ν} {name : ν} {c : Call ν β} {r : Reply β}
      (h : Answer T names name c r T') : Session.Serves ⟨T, none⟩ (.call names name c) r ⟨T', none⟩
  | opened {T : Hierarchy ι ν β} {names : List ν} {name : ν} {reads writes : Bool} {o : Option ι}
      {q : ι} {n : Node ι ν β} (ho : T.Leads none names o) (hq : T.Called o name q n) :
      Session.Serves ⟨T, none⟩ (.open names name reads writes) .done ⟨T, some ⟨names, name, reads, writes⟩⟩
  | notOpened {T : Hierarchy ι ν β} {names : List ν} {name : ν} {reads writes : Bool}
      (h : ∀ o, T.Leads none names o → T.Fresh o name) :
      Session.Serves ⟨T, none⟩ (.open names name reads writes) .missing ⟨T, none⟩
  | onFile {T T' : Hierarchy ι ν β} {f : Opened ν} {c : Call ν β} {r : Reply β}
      (hc : c.Permitted f.reads f.writes) (h : Answer T f.names f.name c r T') :
      Session.Serves ⟨T, some f⟩ (.onFile c) r ⟨T', some f⟩
  | refused {T : Hierarchy ι ν β} {file : Option (Opened ν)} {c : Call ν β}
      (hc : ∀ f, file = some f → ¬ c.Permitted f.reads f.writes) :
      Session.Serves ⟨T, file⟩ (.onFile c) .refused ⟨T, file⟩
  | close {T : Hierarchy ι ν β} {file : Option (Opened ν)} :
      Session.Serves ⟨T, file⟩ .close .done ⟨T, none⟩

/-! ## What a request leaves alone -/

/-- The names lead to a file with these contents. -/
def Holds (T : Hierarchy ι ν β) (names : List ν) (name : ν) (bs : List β) : Prop :=
  ∃ o q n, T.Leads none names o ∧ T.Called o name q n ∧ n.isDir = false ∧ n.contents = bs

/-- A call on the first path can change what the second leads to. -/
def Call.Disturbs : Call ν β → List ν → List ν → Prop
  | remove _, path, path' => path <+: path'
  | rename _, path, path' => path <+: path'
  | append _, path, path' => path = path'
  | overwrite _, path, path' => path = path'
  | _, _, _ => False

def Request.Disturbs : Request ν β → List ν → Prop
  | call names name c, path => c.Disturbs (names ++ [name]) path
  | .open names name _ writes, path => writes = true ∧ names ++ [name] = path
  | _, _ => False

section Paths

variable {T T' : Hierarchy ι ν β} {o p : Option ι} {names names' : List ν} {name name' : ν} {q : ι}
  {n : Node ι ν β}

omit [DecidableEq ι]

/-- A directory has one path. -/
theorem Leads.names_unique (h : T.Leads none names p) (h' : T.Leads none names' p) : names = names' := by
  induction names using List.reverseRecOn generalizing names' p with
  | nil =>
      cases h
      rcases List.eq_nil_or_concat names' with rfl | ⟨ks, k, rfl⟩
      · rfl
      · rw [List.concat_eq_append] at h'
        obtain ⟨_, _, _, -, -, -, hp⟩ := leads_concat.mp h'
        cases hp
  | append_singleton ms m ih =>
      obtain ⟨o, q, n, hms, hq, -, rfl⟩ := leads_concat.mp h
      rcases List.eq_nil_or_concat names' with rfl | ⟨ks, k, rfl⟩
      · cases h'
      · rw [List.concat_eq_append] at h' ⊢
        obtain ⟨o', q', n', hks, hq', -, hqq⟩ := leads_concat.mp h'
        obtain rfl := Option.some.inj hqq
        obtain rfl := Option.some.inj (hq.node.symm.trans hq'.node)
        obtain rfl := hq.parent.symm.trans hq'.parent
        obtain rfl := hq.name.symm.trans hq'.name
        rw [ih hms hks]

/-- A node has one path. -/
theorem Called.path_unique {n' : Node ι ν β} (ho : T.Leads none names o) (hq : T.Called o name q n)
    (hp : T.Leads none names' p) (hq' : T.Called p name' q n') : names ++ [name] = names' ++ [name'] := by
  obtain rfl := Option.some.inj (hq.node.symm.trans hq'.node)
  obtain rfl := hq.parent.symm.trans hq'.parent
  rw [ho.names_unique hp, ← hq.name, ← hq'.name]

/-- Where only the node `q` changes, names that do not go through it lead where they led. -/
theorem Leads.untouched (hsame : ∀ p, p ≠ q → T' p = T p) (ho : T.Leads none names o)
    (hq : T.Called o name q n) (h : T.Leads none names' p) (hout : ¬ names ++ [name] <+: names') :
    T'.Leads none names' p := by
  induction names' using List.reverseRecOn generalizing p with
  | nil =>
      cases h
      exact .here none
  | append_singleton ms m ih =>
      obtain ⟨o', q', n', hms, hq', hdir, rfl⟩ := leads_concat.mp h
      have hne : q' ≠ q := by
        rintro rfl
        exact hout (hq.path_unique ho hms hq' ▸ List.prefix_rfl)
      refine leads_concat.mpr ⟨o', q', n', ih hms fun hpre => hout (hpre.trans (List.prefix_append _ _)),
        ⟨(hsame q' hne).trans hq'.node, hq'.parent, hq'.name⟩, hdir, rfl⟩

/-- New nodes do not change where names lead. -/
theorem Leads.extended (hsub : ∀ q n, T q = some n → T' q = some n) (h : T.Leads o names p) :
    T'.Leads o names p := by
  induction h with
  | here o => exact .here o
  | into hq hdir _ ih => exact .into ⟨hsub _ _ hq.node, hq.parent, hq.name⟩ hdir ih

end Paths

variable {T T' : Hierarchy ι ν β} {names names' : List ν} {name name' : ν} {bs : List β}

omit [DecidableEq ι] in
/-- A file stays as it is when a node is changed to which its path does not lead. -/
theorem Holds.untouched {o : Option ι} {q : ι} {n : Node ι ν β} (hsame : ∀ p, p ≠ q → T' p = T p)
    (ho : T.Leads none names o) (hq : T.Called o name q n) (h : T.Holds names' name' bs)
    (hout : ¬ names ++ [name] <+: names' ++ [name']) : T'.Holds names' name' bs := by
  obtain ⟨o', q', n', ho', hq', hfile, hbs⟩ := h
  have hne : q' ≠ q := by
    rintro rfl
    exact hout (hq.path_unique ho ho' hq' ▸ List.prefix_rfl)
  have hleads := Leads.untouched hsame ho hq ho' fun hpre => hout (hpre.trans (List.prefix_append _ _))
  exact ⟨o', q', n', hleads, ⟨(hsame q' hne).trans hq'.node, hq'.parent, hq'.name⟩, hfile, hbs⟩

/-- The contents of one file are no matter for the others. -/
theorem Holds.holding {o : Option ι} {q : ι} {n : Node ι ν β} (ho : T.Leads none names o)
    (hq : T.Called o name q n) (new : List β) (h : T.Holds names' name' bs)
    (hout : names ++ [name] ≠ names' ++ [name']) :
    Holds (Function.update T q (some (n.holding new))) names' name' bs := by
  obtain ⟨o', q', n', ho', hq', hfile, hbs⟩ := h
  have hne : q' ≠ q := by
    rintro rfl
    exact hout (hq.path_unique ho ho' hq')
  exact ⟨o', q', n', ho'.holding hq.node new, ⟨(Function.update_of_ne hne _ _).trans hq'.node, hq'.parent,
    hq'.name⟩, hfile, hbs⟩

/-- A call leaves the files alone that it does not disturb. -/
theorem Answer.holds {call : Call ν β} {reply : Reply β} (h : Answer T names name call reply T')
    (hout : ¬ call.Disturbs (names ++ [name]) (names' ++ [name'])) (hold : T.Holds names' name' bs) :
    T'.Holds names' name' bs := by
  cases h with
  | @created isDir o q ho hnew hq =>
      have hsub : ∀ p m, T p = some m →
          Function.update T q (some ⟨o, name, isDir, []⟩) p = some m := by
        intro p m hp
        have hne : p ≠ q := by
          rintro rfl
          rw [hq] at hp
          cases hp
        rw [Function.update_of_ne hne, hp]
      obtain ⟨o', q', n', ho', hq', hfile, hbs⟩ := hold
      exact ⟨o', q', n', ho'.extended hsub, ⟨hsub _ _ hq'.node, hq'.parent, hq'.name⟩, hfile, hbs⟩
  | removed ho hq hempty =>
      exact hold.untouched (fun p hp => Function.update_of_ne hp _ _) ho hq hout
  | renamed ho hq hnew =>
      exact hold.untouched (fun p hp => Function.update_of_ne hp _ _) ho hq hout
  | appended ho hq hfile => exact hold.holding ho hq _ hout
  | overwritten ho hq hfile => exact hold.holding ho hq _ hout
  | _ => exact hold

/-- The names lead to a file with these contents, and it is not open for writing. -/
structure Session.Keeps (S : Session ι ν β) (names : List ν) (name : ν) (bs : List β) : Prop where
  holds : S.tree.Holds names name bs
  unwritten : ∀ f, S.file = some f → f.writes = true → f.names ++ [f.name] ≠ names ++ [name]

/-- A request leaves the files alone that it does not disturb. -/
theorem Session.Serves.keeps {S S' : Session ι ν β} {q : Request ν β} {reply : Reply β}
    (h : S.Serves q reply S') (hout : ¬ q.Disturbs (names ++ [name])) (hk : S.Keeps names name bs) :
    S'.Keeps names name bs := by
  cases h with
  | call hanswer => exact ⟨hanswer.holds hout hk.holds, fun f hf => by cases hf⟩
  | opened ho hq =>
      refine ⟨hk.holds, fun f hf hwrites hpath => ?_⟩
      cases hf
      exact hout ⟨hwrites, hpath⟩
  | notOpened _ => exact hk
  | @onFile T T' f c reply hperm hanswer =>
      refine ⟨hanswer.holds (fun hdisturbs => ?_) hk.holds, hk.unwritten⟩
      cases c with
      | append bs => exact hk.unwritten f rfl hperm hdisturbs
      | overwrite bs => exact hk.unwritten f rfl hperm hdisturbs
      | read => exact hdisturbs
      | create _ | remove _ | rename _ => exact hperm
  | refused _ => exact hk
  | close => exact ⟨hk.holds, fun f hf => by cases hf⟩

/-- What is read of a file is what it holds. -/
theorem Answer.read_holds {reply : Reply β} (h : Answer T names name .read reply T')
    (hu : T.Unambiguous) (hold : T.Holds names name bs) : reply = .bytes bs := by
  obtain ⟨o, q, n, ho, hq, hfile, rfl⟩ := hold
  cases h with
  | noDirectory hnone => exact absurd ho (hnone o)
  | missing _ ho' hnone =>
      obtain rfl := ho.unique hu ho'
      exact absurd hq.name (hnone q n hq.node hq.parent)
  | wrongKind hcall ho' hq' hkind =>
      obtain rfl := ho.unique hu ho'
      obtain ⟨-, rfl⟩ := hq.unique hu hq'
      cases hcall
      exact absurd hfile hkind
  | read ho' hq' _ =>
      obtain rfl := ho.unique hu ho'
      obtain ⟨-, rfl⟩ := hq.unique hu hq'
      rfl

/-- A file opened by its names is found, and read. -/
theorem Session.Keeps.read {S S' S'' : Session ι ν β} {writes : Bool} {r r' : Reply β}
    (hk : S.Keeps names name bs) (hu : S.tree.Unambiguous)
    (hopen : S.Serves (.open names name true writes) r S') (hread : S'.Serves (.onFile .read) r' S'') :
    r = .done ∧ r' = .bytes bs := by
  cases hopen with
  | notOpened hnone =>
      obtain ⟨o, q, n, ho, hq, -, -⟩ := hk.holds
      exact absurd hq.name (hnone o ho q n hq.node hq.parent)
  | opened ho' hq' =>
      refine ⟨rfl, ?_⟩
      cases hread with
      | onFile hperm hanswer => exact hanswer.read_holds hu hk.holds
      | refused hno => exact absurd rfl (hno _ rfl)

end Hierarchy
