import Levos.Elf

namespace Levos.Fork
open Elf

structure Child where
  palloc : Nat
  pallocLen : Nat
  execLen : Nat
  paged : PageDirectory

def child (rest : PageDirectory) (palloc execLen : Nat) : Child :=
  ⟨palloc, execLen, execLen, createNewPageDirectory rest 0x400000 palloc⟩

def fill (w : World) (c : Child) (buf : Bytes) : Option World :=
  match slice buf 0 c.pallocLen with
  | none => none
  | some bytes =>
    -- afterwards the directory of the parent is back in cr3
    (({ w with directory := c.paged } : World).store 0x400000 bytes).map
      (fun w' => { w' with directory := w.directory })

/-- `sys_fork` until the memory of the child is there. The buffer lies in the
kernel heap; `rest` is what the block of the new directory held. -/
def sysFork (w : World) (rest : PageDirectory) : Option (Child × World) :=
  match w.phymemAlloc w.caller.execLen with
  | none => none
  | some (palloc, w₁) => match w₁.fetch 0x400000 w.caller.pallocLen with
    | none => none
    | some buf =>
      let c := child rest palloc w.caller.execLen
      (fill w₁ c buf).map (fun w' => (c, w'))

end Levos.Fork
