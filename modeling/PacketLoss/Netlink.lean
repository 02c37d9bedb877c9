import PacketLoss.CrashPrograms
import PacketLoss.KeyedLists

/-!
The part of a host that traffic control works on, and the netlink calls of a
process. A call can fail, which leaves the host unchanged, and the process can die
after any call.
-/
namespace PacketLoss.Netlink

open CrashPrograms KeyedLists Prog

def EEXIST : ℕ := 17
def ENOENT : ℕ := 2
def ETH_P_ALL : ℕ := 0x0003
def HANDLE_CLSACT : ℕ := 0xfffffff1
def HANDLE_MIN_EGRESS : ℕ := 0xfffffff3

inductive Arg
  | text (s : String)
  | number (n : ℕ)

/-- An error that wraps another keeps it for `errors.Is`. -/
inductive Err
  | errno (n : ℕ)
  | errorf (format : String) (args : List Arg)
  | wrap (format : String) (args : List Arg) (err : Err)

def Err.is : Err → ℕ → Bool
  | .errno n, target => n == target
  | .errorf _ _, _ => false
  | .wrap _ _ err, target => err.is target

structure BpfAttrs where
  name : String
  tag : String
  deriving DecidableEq

/-- `bpf` tells a `BpfFilter` from a filter of another kind. -/
structure Filter where
  priority : ℕ
  protocol : ℕ
  handle : ℕ
  bpf : Option BpfAttrs
  deriving DecidableEq

def Filter.key (f : Filter) : ℕ × ℕ × ℕ := (f.priority, f.protocol, f.handle)

abbrev FilterTable := KeyedList Filter.key

/-- Where a list of filters hangs. -/
structure Hook where
  link : ℕ
  parent : ℕ
  deriving DecidableEq

structure Qdisc where
  parent : ℕ
  type : String

structure Host where
  interfaces : List (String × ℕ)
  nodup : (interfaces.map Prod.snd).Nodup
  qdiscs : ℕ → List Qdisc
  filters : Hook → FilterTable

namespace Host

def indexOf (host : Host) (name : String) : Option ℕ :=
  (host.interfaces.find? fun iface => iface.1 = name).map Prod.snd

def addQdisc (host : Host) (link : ℕ) (q : Qdisc) : Host :=
  { host with qdiscs := Function.update host.qdiscs link (host.qdiscs link ++ [q]) }

def setFilters (host : Host) (hook : Hook) (t : FilterTable) : Host :=
  { host with filters := Function.update host.filters hook t }

variable {host : Host}

@[simp]
theorem qdiscs_addQdisc_self (link : ℕ) (q : Qdisc) :
    (host.addQdisc link q).qdiscs link = host.qdiscs link ++ [q] := Function.update_self _ _ _

theorem qdiscs_addQdisc_of_ne {link link' : ℕ} (q : Qdisc) (h : link' ≠ link) :
    (host.addQdisc link q).qdiscs link' = host.qdiscs link' := Function.update_of_ne h _ _

@[simp]
theorem filters_setFilters_self (hook : Hook) (t : FilterTable) :
    (host.setFilters hook t).filters hook = t := Function.update_self _ _ _

theorem filters_setFilters_of_ne {hook hook' : Hook} (t : FilterTable) (h : hook' ≠ hook) :
    (host.setFilters hook t).filters hook' = host.filters hook' := Function.update_of_ne h _ _

theorem mem_of_indexOf {name : String} {i : ℕ} (h : host.indexOf name = some i) :
    (name, i) ∈ host.interfaces := by
  rw [indexOf, Option.map_eq_some_iff] at h
  obtain ⟨⟨name', j⟩, hfind, rfl⟩ := h
  have hname : name' = name := by simpa using List.find?_some hfind
  rw [← hname]
  exact List.mem_of_find?_eq_some hfind

theorem index_mem_of_indexOf {name : String} {i : ℕ} (h : host.indexOf name = some i) :
    i ∈ host.interfaces.map Prod.snd :=
  List.mem_map_of_mem (f := Prod.snd) (mem_of_indexOf h)

/-- Two names are never one interface. -/
theorem indexOf_inj {name name' : String} {i : ℕ} (h : host.indexOf name = some i)
    (h' : host.indexOf name' = some i) : name = name' := by
  have heq := List.inj_on_of_nodup_map host.nodup (mem_of_indexOf h) (mem_of_indexOf h') rfl
  exact congrArg Prod.fst heq

end Host

/-- What the process cannot foresee: which calls fail, after which it dies, and
where the host lists a filter that a call adds. -/
structure Env where
  fails : ℕ → Option Err
  crashes : ℕ → Bool
  place : ℕ → ℕ

/-- A host with a process on it that has made some calls. -/
structure World (π : Type) where
  host : Host
  calls : ℕ
  proc : π

variable {π : Type}

def World.after (w : World π) (host : Host) : World π :=
  { w with host := host, calls := w.calls + 1 }

@[simp]
theorem World.host_after (w : World π) (host : Host) : (w.after host).host = host := rfl

variable (e : Env)

def answer {α : Type} (op : ℕ → Host → Except Err (α × Host)) (w : World π) :
    Except Err (α × Host) :=
  match e.fails w.calls with
  | some err => .error err
  | none => op w.calls w.host

def call {α : Type} (op : ℕ → Host → Except Err (α × Host)) : Prog (World π) Err α := fun w =>
  match answer e op w with
  | .ok (a, host) => (if e.crashes w.calls then .crashed else .returned a, w.after host)
  | .error err => (if e.crashes w.calls then .crashed else .failed err, w.after w.host)

def query {α : Type} (f : Host → Except Err α) : Prog (World π) Err α :=
  call e fun _ host =>
    match f host with
    | .ok a => .ok (a, host)
    | .error err => .error err

def update (f : ℕ → Host → Except Err Host) : Prog (World π) Err Unit :=
  call e fun n host =>
    match f n host with
    | .ok host' => .ok ((), host')
    | .error err => .error err

def interfaceByName (name : String) : Prog (World π) Err ℕ :=
  query e fun host =>
    match host.indexOf name with
    | some index => .ok index
    | none => .error (.errorf "no such network interface" [])

def linkByIndex (index : ℕ) : Prog (World π) Err ℕ :=
  query e fun host =>
    if index ∈ host.interfaces.map Prod.snd then .ok index
    else .error (.errorf "Link not found" [])

def qdiscAdd (link : ℕ) (q : Qdisc) : Prog (World π) Err Unit :=
  update e fun _ host =>
    if (host.qdiscs link).any (·.parent = q.parent) then .error (.errno EEXIST)
    else .ok (host.addQdisc link q)

def qdiscList (link : ℕ) : Prog (World π) Err (List Qdisc) :=
  query e fun host => .ok (host.qdiscs link)

def filterList (hook : Hook) : Prog (World π) Err (List Filter) :=
  query e fun host => .ok (host.filters hook).entries

def filterAdd (hook : Hook) (f : Filter) : Prog (World π) Err Unit :=
  update e fun n host =>
    match (host.filters hook).add (e.place n) f with
    | some t => .ok (host.setFilters hook t)
    | none => .error (.errno EEXIST)

def filterDel (hook : Hook) (f : Filter) : Prog (World π) Err Unit :=
  update e fun _ host =>
    if f ∈ (host.filters hook).entries then
      .ok (host.setFilters hook ((host.filters hook).del f))
    else .error (.errno ENOENT)

variable {e}

theorem ensures_query {α : Type} (f : Host → Except Err α) (w : World π) :
    Ensures (query e f) w
      (fun a w' => w' = w.after w.host ∧ e.fails w.calls = none ∧ f w.host = .ok a)
      (fun err w' => w' = w.after w.host ∧
        (e.fails w.calls = some err ∨ e.fails w.calls = none ∧ f w.host = .error err))
      (fun w' => w' = w.after w.host ∧ e.crashes w.calls = true) := by
  unfold Ensures query call answer
  rcases hfails : e.fails w.calls with _ | err
  · rcases hf : f w.host with err | a
    · cases e.crashes w.calls <;> simp [hf]
    · cases e.crashes w.calls <;> simp [hf]
  · cases e.crashes w.calls <;> simp

theorem ensures_update (f : ℕ → Host → Except Err Host) (w : World π) :
    Ensures (update e f) w
      (fun _ w' => ∃ host, w' = w.after host ∧ e.fails w.calls = none ∧
        f w.calls w.host = .ok host)
      (fun err w' => w' = w.after w.host ∧
        (e.fails w.calls = some err ∨ e.fails w.calls = none ∧ f w.calls w.host = .error err))
      (fun w' => (w' = w.after w.host ∨
        ∃ host, w' = w.after host ∧ f w.calls w.host = .ok host) ∧
          e.crashes w.calls = true) := by
  unfold Ensures update call answer
  rcases hfails : e.fails w.calls with _ | err
  · rcases hf : f w.calls w.host with err | host
    · cases e.crashes w.calls <;> simp [hf]
    · cases e.crashes w.calls <;> simp [hf]
  · cases e.crashes w.calls <;> simp

end PacketLoss.Netlink
